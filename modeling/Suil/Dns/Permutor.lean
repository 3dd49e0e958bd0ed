import Suil.Lib.CycleWalk
import Suil.Lib.Feistel

/-! The permutation generator behind the query ids: `dns_k_tea_encrypt`, the Feistel network
around it, and the walk of `dns_k_permutor_step`. The key is drawn from `dns_random`. -/
namespace Suil.Dns

structure DnsKTea where
  key : Fin 4 → UInt32
  cycles : UInt32

/-- No cycles stand for the usual number of them. -/
def dnsKTeaInit (key : Fin 4 → UInt32) (cycles : UInt32) : DnsKTea :=
  { key, cycles := if cycles ≠ 0 then cycles else 32 }

/-- The loop of `dns_k_tea_encrypt`, with `n` cycles ahead. -/
def dnsKTeaCycles (tea : DnsKTea) : ℕ → UInt32 → UInt32 → UInt32 → UInt32 × UInt32
  | 0, y, z, _ => (y, z)
  | n + 1, y, z, sum =>
    let sum := sum + 0x9E3779B9
    let y := y + ((z <<< 4 + tea.key 0) ^^^ (z + sum) ^^^ (z >>> 5 + tea.key 1))
    let z := z + ((y <<< 4 + tea.key 2) ^^^ (y + sum) ^^^ (y >>> 5 + tea.key 3))
    dnsKTeaCycles tea n y z sum

def dnsKTeaEncrypt (tea : DnsKTea) (v : UInt32 × UInt32) : UInt32 × UInt32 :=
  dnsKTeaCycles tea tea.cycles.toNat v.1 v.2 0

structure DnsKPermutor where
  stepi : UInt32
  length : UInt32
  limit : UInt32
  shift : UInt32
  mask : UInt32
  rounds : UInt32
  tea : DnsKTea

/-- The loop of `dns_k_permutor_powof`, which is not over after `fuel` rounds if there is no
result. -/
def powofFrom (n : UInt32) : ℕ → UInt32 → UInt32 → Option UInt32
  | 0, _, _ => none
  | fuel + 1, m, i => if m < n then powofFrom n fuel (m <<< 1) (i + 1) else some i

def dnsKPermutorPowof (fuel : ℕ) (n : UInt32) : Option UInt32 := powofFrom n fuel 1 0

def dnsKPermutorInit (fuel : ℕ) (key : Fin 4 → UInt32) (low high : UInt32) :
    Option DnsKPermutor := do
  let length := high - low + 1
  let width ← dnsKPermutorPowof fuel length
  let width := width + width % 2
  let shift := width / 2
  some { stepi := 0, length, limit := high, shift, mask := (1 <<< shift) - 1, rounds := 8,
         tea := dnsKTeaInit key 0 }

namespace DnsKPermutor

def F (p : DnsKPermutor) (k x : UInt32) : UInt32 := p.mask &&& (dnsKTeaEncrypt p.tea (k, x)).1

/-- The two halves of a number, as the network reads them. -/
def split (p : DnsKPermutor) (n : UInt32) : UInt32 × UInt32 :=
  (p.mask &&& (n >>> p.shift), p.mask &&& n)

def join (p : DnsKPermutor) (x : UInt32 × UInt32) : UInt32 :=
  ((x.1 &&& p.mask) <<< p.shift) ||| (x.2 &&& p.mask)

/-- One round reads the slot `i % 2` of `l` and `r` and fills the other: a pair stands for the
slot that is read next. There are two rounds or more. -/
def E (p : DnsKPermutor) (n : UInt32) : UInt32 :=
  p.join (Feistel.rounds (· ^^^ ·) (fun i x => p.F (.ofNat i) x) (p.rounds - 1).toNat (p.split n))

def D (p : DnsKPermutor) (n : UInt32) : UInt32 :=
  p.join (Feistel.unrounds (· ^^^ ·) (fun i x => p.F (.ofNat i) x) (p.rounds - 1).toNat
    (p.split n))

/-- No result means that the loop is not over after `fuel` rounds. -/
def step : ℕ → DnsKPermutor → Option (UInt32 × DnsKPermutor)
  | 0, _ => none
  | fuel + 1, p =>
    let n := p.E p.stepi
    let p := { p with stepi := p.stepi + 1 }
    if n ≥ p.length then step fuel p else some (n + (p.limit + 1 - p.length), p)

/-- What the call after `n` others returns. -/
def stepAfter (fuel : ℕ) : ℕ → DnsKPermutor → Option UInt32
  | 0, p => (step fuel p).map Prod.fst
  | n + 1, p => (step fuel p).bind fun r => stepAfter fuel n r.2

/-- What `dns_k_permutor_init` sets up for the numbers from `low` to `high`. -/
structure Ready (p : DnsKPermutor) (low high : UInt32) : Prop where
  length : p.length = high - low + 1
  limit : p.limit = high
  shift : p.shift.toNat ≤ 16
  mask : p.mask = (1 <<< p.shift) - 1
  rounds : p.rounds = 8
  fits : p.length.toNat ≤ 2 ^ p.shift.toNat * 2 ^ p.shift.toNat

/-- The numbers that the network permutes. -/
def period (p : DnsKPermutor) : ℕ := 2 ^ p.shift.toNat * 2 ^ p.shift.toNat

/-- Both halves are within the mask. -/
def Fits (p : DnsKPermutor) (x : UInt32 × UInt32) : Prop :=
  x.1.toNat < 2 ^ p.shift.toNat ∧ x.2.toNat < 2 ^ p.shift.toNat

variable {p : DnsKPermutor} {low high n m : UInt32}

theorem Ready.toNat_mask (h : Ready p low high) : p.mask.toNat = 2 ^ p.shift.toNat - 1 := by
  have hshift : p.shift.toNat ≤ 16 := h.shift
  have hpow : 2 ^ p.shift.toNat ≤ 2 ^ 16 := Nat.pow_le_pow_right (by decide) hshift
  have hpos : 0 < 2 ^ p.shift.toNat := Nat.two_pow_pos _
  rw [h.mask, UInt32.toNat_sub, UInt32.toNat_shiftLeft, UInt32.toNat_one, Nat.one_shiftLeft,
    Nat.mod_eq_of_lt (by omega : p.shift.toNat < 32)]
  omega

theorem Ready.toNat_mask_and (h : Ready p low high) (n : UInt32) :
    (p.mask &&& n).toNat = n.toNat % 2 ^ p.shift.toNat := by
  rw [UInt32.toNat_and, h.toNat_mask, Nat.and_comm, Nat.and_two_pow_sub_one_eq_mod]

/-- The counter runs over whole periods, also where it wraps. -/
theorem Ready.period_dvd (h : Ready p low high) : p.period ∣ 2 ^ 32 := by
  have hshift : p.shift.toNat ≤ 16 := h.shift
  rw [period, ← Nat.pow_add]
  exact Nat.pow_dvd_pow 2 (by omega)

theorem Ready.period_le (h : Ready p low high) : p.period ≤ 2 ^ 32 :=
  Nat.le_of_dvd (by decide) h.period_dvd

theorem Ready.toNat_join (h : Ready p low high) (x : UInt32 × UInt32) :
    (p.join x).toNat = x.1.toNat % 2 ^ p.shift.toNat * 2 ^ p.shift.toNat +
      x.2.toNat % 2 ^ p.shift.toNat := by
  have hshift : p.shift.toNat ≤ 16 := h.shift
  have hlow : x.2.toNat % 2 ^ p.shift.toNat < 2 ^ p.shift.toNat := Nat.mod_lt _ (Nat.two_pow_pos _)
  have hfit : x.1.toNat % 2 ^ p.shift.toNat * 2 ^ p.shift.toNat < 2 ^ 32 :=
    calc x.1.toNat % 2 ^ p.shift.toNat * 2 ^ p.shift.toNat
      _ < p.period := Nat.mul_lt_mul_of_pos_right (Nat.mod_lt _ (Nat.two_pow_pos _))
          (Nat.two_pow_pos _)
      _ ≤ 2 ^ 32 := h.period_le
  rw [join, UInt32.toNat_or, UInt32.toNat_shiftLeft, UInt32.and_comm, h.toNat_mask_and,
    UInt32.and_comm x.2, h.toNat_mask_and, Nat.mod_eq_of_lt (by omega : p.shift.toNat < 32),
    Nat.shiftLeft_eq, Nat.mod_eq_of_lt hfit, ← Nat.shiftLeft_eq,
    ← Nat.shiftLeft_add_eq_or_of_lt hlow, Nat.shiftLeft_eq]

theorem Ready.toNat_split (h : Ready p low high) (n : UInt32) :
    (p.split n).1.toNat = n.toNat / 2 ^ p.shift.toNat % 2 ^ p.shift.toNat ∧
      (p.split n).2.toNat = n.toNat % 2 ^ p.shift.toNat := by
  have hshift : p.shift.toNat ≤ 16 := h.shift
  refine ⟨?_, h.toNat_mask_and n⟩
  rw [split, h.toNat_mask_and, UInt32.toNat_shiftRight,
    Nat.mod_eq_of_lt (by omega : p.shift.toNat < 32), Nat.shiftRight_eq_div_pow]

theorem Ready.split_fits (h : Ready p low high) (n : UInt32) : p.Fits (p.split n) := by
  obtain ⟨hhigh, hlow⟩ := h.toNat_split n
  exact ⟨hhigh ▸ Nat.mod_lt _ (Nat.two_pow_pos _), hlow ▸ Nat.mod_lt _ (Nat.two_pow_pos _)⟩

/-- The two halves together are the number, up to whole periods. -/
theorem Ready.toNat_join_split (h : Ready p low high) (n : UInt32) :
    (p.join (p.split n)).toNat = n.toNat % p.period := by
  obtain ⟨hhigh, hlow⟩ := h.toNat_split n
  rw [h.toNat_join, hhigh, hlow, Nat.mod_mod, Nat.mod_mod, period, Nat.mod_mul, Nat.add_comm,
    Nat.mul_comm]

theorem Ready.split_join (h : Ready p low high) {x : UInt32 × UInt32} (hx : p.Fits x) :
    p.split (p.join x) = x := by
  obtain ⟨hhigh, hlow⟩ := h.toNat_split (p.join x)
  rw [h.toNat_join, Nat.mod_eq_of_lt hx.1, Nat.mod_eq_of_lt hx.2] at hhigh hlow
  rw [Nat.add_comm, Nat.add_mul_div_right _ _ (Nat.two_pow_pos _), Nat.div_eq_of_lt hx.2,
    Nat.zero_add, Nat.mod_eq_of_lt hx.1] at hhigh
  rw [Nat.add_comm, Nat.add_mul_mod_self_right, Nat.mod_eq_of_lt hx.2] at hlow
  exact Prod.ext (UInt32.toNat_inj.mp hhigh) (UInt32.toNat_inj.mp hlow)

theorem Ready.toNat_join_lt (h : Ready p low high) (x : UInt32 × UInt32) :
    (p.join x).toNat < p.period := by
  have hhigh : x.1.toNat % 2 ^ p.shift.toNat + 1 ≤ 2 ^ p.shift.toNat :=
    Nat.mod_lt _ (Nat.two_pow_pos _)
  have hlow : x.2.toNat % 2 ^ p.shift.toNat < 2 ^ p.shift.toNat := Nat.mod_lt _ (Nat.two_pow_pos _)
  calc (p.join x).toNat
    _ = x.1.toNat % 2 ^ p.shift.toNat * 2 ^ p.shift.toNat + x.2.toNat % 2 ^ p.shift.toNat :=
        h.toNat_join x
    _ < (x.1.toNat % 2 ^ p.shift.toNat + 1) * 2 ^ p.shift.toNat := by
        rw [Nat.add_mul, Nat.one_mul]
        exact Nat.add_lt_add_left hlow _
    _ ≤ p.period := Nat.mul_le_mul_right _ hhigh

theorem xor_cancels : Feistel.Cancels fun a b : UInt32 => a ^^^ b := fun a b => by
  change a ^^^ b ^^^ b = a
  rw [UInt32.xor_assoc, UInt32.xor_self, UInt32.xor_zero]

theorem xor_fits {s : ℕ} (a b : UInt32) (ha : a.toNat < 2 ^ s) (hb : b.toNat < 2 ^ s) :
    (a ^^^ b).toNat < 2 ^ s := by
  rw [UInt32.toNat_xor]
  exact Nat.xor_lt_two_pow ha hb

theorem Ready.F_fits (h : Ready p low high) (k x : UInt32) :
    (p.F k x).toNat < 2 ^ p.shift.toNat := by
  rw [F, h.toNat_mask_and]
  exact Nat.mod_lt _ (Nat.two_pow_pos _)

/-- `D` undoes `E`: the commented-out check of the source's own driver. -/
theorem Ready.toNat_D_E (h : Ready p low high) (n : UInt32) :
    (p.D (p.E n)).toNat = n.toNat % p.period := by
  have hfits := Feistel.rounds_keeps xor_fits (fun i => h.F_fits (.ofNat i)) (p.rounds - 1).toNat
    (h.split_fits n)
  rw [D, E, h.split_join hfits, Feistel.unrounds_rounds xor_cancels, h.toNat_join_split]

theorem Ready.toNat_E_D (h : Ready p low high) (n : UInt32) :
    (p.E (p.D n)).toNat = n.toNat % p.period := by
  have hfits := Feistel.unrounds_keeps xor_fits (fun i => h.F_fits (.ofNat i)) (p.rounds - 1).toNat
    (h.split_fits n)
  rw [D, E, h.split_join hfits, Feistel.rounds_unrounds xor_cancels, h.toNat_join_split]

theorem Ready.E_inj (h : Ready p low high) (hE : p.E n = p.E m) :
    n.toNat % p.period = m.toNat % p.period := by
  rw [← h.toNat_D_E, hE, h.toNat_D_E]

theorem toNat_iterate_add_one (i : ℕ) (s : UInt32) :
    ((· + 1)^[i] s : UInt32).toNat = (s.toNat + i) % 2 ^ 32 := by
  induction i with
  | zero => exact (Nat.mod_eq_of_lt s.toNat_lt).symm
  | succ i ih =>
    rw [Function.iterate_succ_apply', UInt32.toNat_add, ih, UInt32.toNat_one, Nat.mod_add_mod,
      Nat.add_assoc]

/-- The first `n` numbers of an `unsigned`. -/
def below (n : ℕ) : List UInt32 := (List.range n).map UInt32.ofNat

theorem mem_below {k : ℕ} (hk : k ≤ 2 ^ 32) {v : UInt32} : v ∈ below k ↔ v.toNat < k := by
  rw [below, List.mem_map]
  constructor
  · intro ⟨n, hn, hnv⟩
    rw [List.mem_range] at hn
    rwa [← hnv, UInt32.toNat_ofNat_of_lt' (Nat.lt_of_lt_of_le hn hk)]
  · intro hv
    exact ⟨v.toNat, List.mem_range.mpr hv, UInt32.ofNat_toNat⟩

theorem nodup_below {k : ℕ} (hk : k ≤ 2 ^ 32) : (below k).Nodup := by
  refine List.Nodup.map_on (fun i hi j hj hij => ?_) List.nodup_range
  have hnat := congrArg UInt32.toNat hij
  rwa [UInt32.toNat_ofNat_of_lt' (Nat.lt_of_lt_of_le (List.mem_range.mp hi) hk),
    UInt32.toNat_ofNat_of_lt' (Nat.lt_of_lt_of_le (List.mem_range.mp hj) hk)] at hnat

@[simp] theorem length_below (k : ℕ) : (below k).length = k := by
  rw [below, List.length_map, List.length_range]

/-- A stretch of the counter, from wherever it stands, gives each number of the period once. -/
theorem Ready.orbit_perm (h : Ready p low high) (s : UInt32) :
    (CycleWalk.orbit p.E (· + 1) p.period s).Perm (below p.period) := by
  have hnodup : (CycleWalk.orbit p.E (· + 1) p.period s).Nodup := by
    rw [CycleWalk.orbit_eq_map]
    refine List.Nodup.map_on (fun i hi j hj hij => ?_) List.nodup_range
    have hmod := h.E_inj hij
    rw [toNat_iterate_add_one, toNat_iterate_add_one, Nat.mod_mod_of_dvd _ h.period_dvd,
      Nat.mod_mod_of_dvd _ h.period_dvd] at hmod
    have hcancel : i % p.period = j % p.period := Nat.ModEq.add_left_cancel' _ hmod
    rwa [Nat.mod_eq_of_lt (List.mem_range.mp hi), Nat.mod_eq_of_lt (List.mem_range.mp hj)]
      at hcancel
  refine (List.subperm_of_subset hnodup fun v hv => ?_).perm_of_length_le ?_
  · rw [CycleWalk.orbit_eq_map, List.mem_map] at hv
    obtain ⟨i, _, hi⟩ := hv
    exact (mem_below h.period_le).mpr (hi ▸ h.toNat_join_lt _)
  · rw [CycleWalk.orbit_eq_map, List.length_map, List.length_range, length_below]

theorem Ready.mem_filter (h : Ready p low high) (v : UInt32) :
    v ∈ (below p.period).filter (· < p.length) ↔ v < p.length := by
  have hfits : p.length.toNat ≤ p.period := h.fits
  rw [List.mem_filter, decide_eq_true_eq, mem_below h.period_le, and_iff_right_iff_imp,
    UInt32.lt_iff_toNat_lt]
  exact fun hv => Nat.lt_of_lt_of_le hv hfits

theorem Ready.length_filter (h : Ready p low high) :
    ((below p.period).filter (· < p.length)).length = p.length.toNat := by
  have hsize : p.length.toNat ≤ 2 ^ 32 := p.length.toNat_lt.le
  have hperm : ((below p.period).filter (· < p.length)).Perm (below p.length.toNat) := by
    rw [List.perm_ext_iff_of_nodup ((nodup_below h.period_le).filter _) (nodup_below hsize)]
    intro v
    rw [h.mem_filter, mem_below hsize, UInt32.lt_iff_toNat_lt]
  rw [hperm.length_eq, length_below]

theorem step_eq_first (fuel : ℕ) (p : DnsKPermutor) :
    step fuel p = (CycleWalk.first p.E (· + 1) (· < p.length) fuel p.stepi).map fun r =>
      (r.1 + (p.limit + 1 - p.length), { p with stepi := r.2 }) := by
  induction fuel generalizing p with
  | zero => rfl
  | succ fuel ih =>
    by_cases hlt : p.E p.stepi < p.length
    · rw [step, if_neg (UInt32.not_le.mpr hlt), CycleWalk.first, if_pos (decide_eq_true hlt)]
      rfl
    · rw [step, if_pos (UInt32.not_lt.mp hlt), CycleWalk.first, if_neg (by simpa using hlt), ih]
      rfl

theorem stepAfter_eq_nth (fuel n : ℕ) (p : DnsKPermutor) :
    stepAfter fuel n p = (CycleWalk.nth p.E (· + 1) (· < p.length) fuel n p.stepi).map
      (· + (p.limit + 1 - p.length)) := by
  induction n generalizing p with
  | zero =>
    rw [stepAfter, CycleWalk.nth, step_eq_first]
    cases CycleWalk.first p.E (· + 1) (· < p.length) fuel p.stepi with
    | none => rfl
    | some r => rfl
  | succ n ih =>
    rw [stepAfter, CycleWalk.nth, step_eq_first]
    cases CycleWalk.first p.E (· + 1) (· < p.length) fuel p.stepi with
    | none => rfl
    | some r => exact ih _

/-- The lowest number of the range. -/
theorem Ready.low_eq (h : Ready p low high) : p.limit + 1 - p.length = low := by
  rw [h.limit, h.length]
  grind

theorem Ready.stepAfter_periodic (h : Ready p low high) (hlow : low ≤ high)
    (hlen : high.toNat - low.toNat < 2 ^ 31) {fuel : ℕ} (hfuel : p.period ≤ fuel) :
    ∃ f : ℕ → UInt32, (∀ n, stepAfter fuel n p = some (f n)) ∧
      (∀ n, low ≤ f n ∧ f n ≤ high) ∧
      (∀ x, low ≤ x → x ≤ high → ∀ i, ∃ k < p.length.toNat, f (i + k) = x) ∧
      ∀ i j, f i = f j ↔ i ≡ j [MOD p.length.toNat] := by
  have hlow' : low.toNat ≤ high.toNat := UInt32.le_iff_toNat_le.mp hlow
  have hlength : p.length.toNat = high.toNat - low.toNat + 1 := by
    rw [h.length, UInt32.toNat_add, UInt32.toNat_sub_of_le _ _ hlow, UInt32.toNat_one]
    omega
  -- how far a number of the range is from its low end
  have hoffset : ∀ x, low ≤ x → x ≤ high → x - low < p.length := fun x hlx hxh => by
    rw [UInt32.le_iff_toNat_le] at hlx hxh
    rw [UInt32.lt_iff_toNat_lt, UInt32.toNat_sub_of_le _ _ (UInt32.le_iff_toNat_le.mpr hlx),
      hlength]
    omega
  obtain ⟨g, hg, hrange, hcover, hmod⟩ := CycleWalk.nth_periodic (nodup_below h.period_le) h.orbit_perm
    (by rw [h.length_filter]; omega) hfuel p.stepi
  rw [h.length_filter] at hcover hmod
  refine ⟨fun n => g n + low, fun n => ?_, fun n => ?_, fun x hlx hxh i => ?_, fun i j => ?_⟩
  · rw [stepAfter_eq_nth, hg, h.low_eq, Option.map_some]
  · have hhigh : high.toNat < 2 ^ 32 := high.toNat_lt
    have hn := (h.mem_filter _).mp (hrange n)
    rw [UInt32.lt_iff_toNat_lt, hlength] at hn
    rw [UInt32.le_iff_toNat_le, UInt32.le_iff_toNat_le, UInt32.toNat_add]
    omega
  · obtain ⟨k, hk, hkx⟩ := hcover _ ((h.mem_filter _).mpr (hoffset x hlx hxh)) i
    refine ⟨k, hk, ?_⟩
    change g (i + k) + low = x
    rw [hkx, UInt32.sub_add_cancel]
  · rw [← hmod, UInt32.add_left_inj]

end DnsKPermutor

section Init
open DnsKPermutor

variable {fuel : ℕ} {key : Fin 4 → UInt32} {low high n m i : UInt32}

theorem toNat_shiftLeft_one (hm : m.toNat < 2 ^ 31) : (m <<< 1).toNat = 2 * m.toNat := by
  have hone : (1 : UInt32).toNat % 32 = 1 := rfl
  rw [UInt32.toNat_shiftLeft, hone, Nat.shiftLeft_eq, Nat.mod_eq_of_lt (by omega)]
  exact Nat.mul_comm _ _

/-- The least power of two that is not below `n`. -/
theorem powofFrom_eq (hn : n.toNat ≤ 2 ^ 31) (hm : m.toNat = 2 ^ i.toNat) (hi : i.toNat ≤ 31)
    (hleast : i.toNat = 0 ∨ 2 ^ i.toNat < 2 * n.toNat) (hfuel : 32 - i.toNat ≤ fuel) :
    ∃ j, powofFrom n fuel m i = some j ∧ j.toNat ≤ 31 ∧ n.toNat ≤ 2 ^ j.toNat ∧
      (j.toNat = 0 ∨ 2 ^ j.toNat < 2 * n.toNat) := by
  induction fuel generalizing m i with
  | zero => omega
  | succ fuel ih =>
    by_cases hlt : m < n
    · have hlt' : m.toNat < n.toNat := UInt32.lt_iff_toNat_lt.mp hlt
      have hlast : i.toNat < 31 := (Nat.pow_lt_pow_iff_right (by decide : 1 < 2)).mp (by omega)
      have hi' : (i + 1).toNat = i.toNat + 1 := by
        rw [UInt32.toNat_add, UInt32.toNat_one]
        omega
      have hm' : (m <<< 1).toNat = 2 ^ (i + 1).toNat := by
        rw [toNat_shiftLeft_one (by omega), hi', hm, Nat.pow_succ, Nat.mul_comm]
      rw [powofFrom, if_pos hlt]
      exact ih hm' (by omega) (.inr (by rw [hi', Nat.pow_succ]; omega)) (by omega)
    · rw [powofFrom, if_neg hlt]
      rw [UInt32.lt_iff_toNat_lt] at hlt
      exact ⟨i, rfl, hi, by omega, hleast⟩

/-- Powers of two run out before a number above `2 ^ 31` is reached. -/
theorem powofFrom_eq_none (hn : 2 ^ 31 < n.toNat) (hm : m = 0 ∨ ∃ k ≤ 31, m.toNat = 2 ^ k) :
    powofFrom n fuel m i = none := by
  induction fuel generalizing m i with
  | zero => rfl
  | succ fuel ih =>
    have hlt : m < n := by
      rw [UInt32.lt_iff_toNat_lt]
      cases hm with
      | inl hzero => rw [hzero, UInt32.toNat_zero]; omega
      | inr hpow =>
        obtain ⟨k, hk, hmk⟩ := hpow
        have hle : 2 ^ k ≤ 2 ^ 31 := Nat.pow_le_pow_right (by decide) hk
        omega
    rw [powofFrom, if_pos hlt]
    refine ih ?_
    cases hm with
    | inl hzero => exact .inl (by rw [hzero]; rfl)
    | inr hpow =>
      obtain ⟨k, hk, hmk⟩ := hpow
      by_cases hlast : k = 31
      · left
        rw [← UInt32.toNat_inj, UInt32.toNat_shiftLeft, hmk, hlast]
        rfl
      · right
        have hle : 2 ^ k < 2 ^ 31 := Nat.pow_lt_pow_right (by decide) (by omega)
        exact ⟨k + 1, by omega, by rw [toNat_shiftLeft_one (by omega), hmk, Nat.pow_succ]; omega⟩

theorem dnsKPermutorInit_eq_none (hlow : low ≤ high) (hlen : 2 ^ 31 ≤ high.toNat - low.toNat)
    (hwrap : high.toNat - low.toNat + 1 < 2 ^ 32) : dnsKPermutorInit fuel key low high = none := by
  have hlength : (high - low + 1).toNat = high.toNat - low.toNat + 1 := by
    rw [UInt32.toNat_add, UInt32.toNat_sub_of_le _ _ hlow, UInt32.toNat_one, Nat.mod_eq_of_lt hwrap]
  rw [dnsKPermutorInit, dnsKPermutorPowof, powofFrom_eq_none (by omega) (.inr ⟨0, by decide, rfl⟩)]
  rfl

theorem dnsKPermutorInit_ready (key : Fin 4 → UInt32) (hlow : low ≤ high)
    (hlen : high.toNat - low.toNat < 2 ^ 31) (hfuel : 32 ≤ fuel) :
    ∃ p, dnsKPermutorInit fuel key low high = some p ∧
      p.Ready low high ∧ p.period ≤ 4 * p.length.toNat := by
  have hlength : (high - low + 1).toNat = high.toNat - low.toNat + 1 := by
    rw [UInt32.toNat_add, UInt32.toNat_sub_of_le _ _ hlow, UInt32.toNat_one]
    omega
  obtain ⟨j, hpow, hj, hfits, hleast⟩ := powofFrom_eq (n := high - low + 1) (m := 1) (i := 0)
    (by omega) rfl (by decide) (.inl rfl) hfuel
  have heven : (j % 2).toNat = j.toNat % 2 := UInt32.toNat_mod j 2
  have hshift : ((j + j % 2) / 2).toNat = (j.toNat + j.toNat % 2) / 2 := by
    rw [UInt32.toNat_div, UInt32.toNat_add, heven, Nat.mod_eq_of_lt (by omega)]
    rfl
  -- the width is the exponent or, if that is odd, one more
  have hwidth : j.toNat ≤ 2 * ((j.toNat + j.toNat % 2) / 2) ∧
      2 * ((j.toNat + j.toNat % 2) / 2) ≤ j.toNat + 1 := by omega
  refine ⟨_, by rw [dnsKPermutorInit, dnsKPermutorPowof, hpow]; rfl, ⟨rfl, rfl, ?_, rfl, rfl, ?_⟩, ?_⟩
  · rw [hshift]
    omega
  · rw [hshift, ← Nat.pow_add, ← Nat.two_mul]
    exact Nat.le_trans hfits (Nat.pow_le_pow_right (by decide) hwidth.1)
  · change 2 ^ ((j + j % 2) / 2).toNat * 2 ^ ((j + j % 2) / 2).toNat ≤ 4 * (high - low + 1).toNat
    rw [hshift, ← Nat.pow_add, ← Nat.two_mul]
    have hle := Nat.pow_le_pow_right (by decide : 0 < 2) hwidth.2
    rw [Nat.pow_succ] at hle
    cases hleast with
    | inl hzero => rw [hzero] at hle ⊢; omega
    | inr hlt => omega

/-- The numbers from `low` to `high` come in one order again and again: two calls return the same
number if and only if whole rounds lie between them. -/
theorem dnsKPermutorStep_goes_round (key : Fin 4 → UInt32) (hlow : low ≤ high)
    (hlen : high.toNat - low.toNat < 2 ^ 31)
    (hfuel : 4 * (high.toNat - low.toNat) + 32 ≤ fuel) :
    ∃ p, dnsKPermutorInit fuel key low high = some p ∧
      ∃ f : ℕ → UInt32, (∀ n, stepAfter fuel n p = some (f n)) ∧
        (∀ n, low ≤ f n ∧ f n ≤ high) ∧
        (∀ x, low ≤ x → x ≤ high → ∀ i, ∃ k ≤ high.toNat - low.toNat, f (i + k) = x) ∧
        ∀ i j, f i = f j ↔ i ≡ j [MOD high.toNat - low.toNat + 1] := by
  obtain ⟨p, hinit, hready, hperiod⟩ := dnsKPermutorInit_ready key hlow hlen
    (Nat.le_trans (Nat.le_add_left 32 _) hfuel)
  have hlength : p.length.toNat = high.toNat - low.toNat + 1 := by
    rw [hready.length, UInt32.toNat_add, UInt32.toNat_sub_of_le _ _ hlow, UInt32.toNat_one]
    omega
  obtain ⟨f, hf, hrange, hcover, hmod⟩ := hready.stepAfter_periodic hlow hlen
    (by omega : p.period ≤ fuel)
  rw [hlength] at hcover hmod
  exact ⟨p, hinit, f, hf, hrange, fun x hlx hxh i =>
    (hcover x hlx hxh i).imp fun k hk => ⟨Nat.le_of_lt_succ hk.1, hk.2⟩, hmod⟩

theorem dnsKPermutorStep_goes_round_seven : ∃ p,
    dnsKPermutorInit 60 (fun _ => 0) 3 9 = some p ∧
      ∃ f : ℕ → UInt32, (∀ n, stepAfter 60 n p = some (f n)) ∧ (∀ n, 3 ≤ f n ∧ f n ≤ 9) ∧
        (∀ x, 3 ≤ x → x ≤ 9 → ∀ i, ∃ k ≤ 6, f (i + k) = x) ∧
        ∀ i j, f i = f j ↔ i ≡ j [MOD 7] :=
  dnsKPermutorStep_goes_round _ (by decide) (by decide) (by decide)

/-- `E` and `D` are inverse permutations of the numbers below one power of 4, which are at least as
many as those of the range, whatever the key is. -/
theorem dnsKPermutor_D_E (key : Fin 4 → UInt32) (hlow : low ≤ high)
    (hlen : high.toNat - low.toNat < 2 ^ 31) (hfuel : 32 ≤ fuel) :
    ∃ p, dnsKPermutorInit fuel key low high = some p ∧ p.length.toNat ≤ p.period ∧
      ∀ n : UInt32, n.toNat < p.period →
        (p.E n).toNat < p.period ∧ (p.D n).toNat < p.period ∧
          p.D (p.E n) = n ∧ p.E (p.D n) = n := by
  obtain ⟨p, hinit, hready, _⟩ := dnsKPermutorInit_ready key hlow hlen hfuel
  refine ⟨p, hinit, hready.fits, fun n hn =>
    ⟨hready.toNat_join_lt _, hready.toNat_join_lt _, ?_, ?_⟩⟩
  · rw [← UInt32.toNat_inj, hready.toNat_D_E, Nat.mod_eq_of_lt hn]
  · rw [← UInt32.toNat_inj, hready.toNat_E_D, Nat.mod_eq_of_lt hn]

theorem dnsKPermutor_D_E_seven : ∃ p, dnsKPermutorInit 32 (fun _ => 0) 3 9 = some p ∧
    p.length.toNat ≤ p.period ∧ ∀ n : UInt32, n.toNat < p.period →
      (p.E n).toNat < p.period ∧ (p.D n).toNat < p.period ∧
        p.D (p.E n) = n ∧ p.E (p.D n) = n :=
  dnsKPermutor_D_E _ (by decide) (by decide) (by decide)

/-- The id of the query that comes after `n` others, as an `unsigned short`. -/
def dnsSoMkqid (fuel n : ℕ) (qids : DnsKPermutor) : Option UInt16 :=
  (stepAfter fuel n qids).map UInt32.toUInt16

/-- No query id is zero, and none comes back before all the others have been used. -/
theorem dnsSoMkqid_goes_round (key : Fin 4 → UInt32) (hfuel : 262168 ≤ fuel) :
    ∃ qids, dnsKPermutorInit fuel key 1 65535 = some qids ∧
      ∃ f : ℕ → UInt16, (∀ n, dnsSoMkqid fuel n qids = some (f n)) ∧ (∀ n, f n ≠ 0) ∧
        ∀ i j, f i = f j ↔ i ≡ j [MOD 65535] := by
  have hlow : (1 : UInt32) ≤ 65535 := by decide
  obtain ⟨qids, hinit, hready, hperiod⟩ := dnsKPermutorInit_ready key hlow (by decide)
    (Nat.le_trans (by decide) hfuel)
  have hlength : qids.length.toNat = 65535 := by rw [hready.length]; rfl
  obtain ⟨f, hf, hrange, -, hmod⟩ := hready.stepAfter_periodic hlow (by decide)
    (by omega : qids.period ≤ fuel)
  rw [hlength] at hmod
  have hsmall : ∀ n, 1 ≤ (f n).toNat ∧ (f n).toNat < 2 ^ 16 := fun n => by
    have hlow := UInt32.le_iff_toNat_le.mp (hrange n).1
    have hhigh := UInt32.le_iff_toNat_le.mp (hrange n).2
    exact ⟨hlow, Nat.lt_succ_of_le hhigh⟩
  have hshort : ∀ n, (f n).toUInt16.toNat = (f n).toNat := fun n => by
    rw [UInt32.toNat_toUInt16, Nat.mod_eq_of_lt (hsmall n).2]
  refine ⟨qids, hinit, fun n => (f n).toUInt16, fun n => ?_, fun n hzero => ?_, fun i j => ?_⟩
  · rw [dnsSoMkqid, hf, Option.map_some]
  · have hnat : (f n).toUInt16.toNat = 0 := congrArg UInt16.toNat hzero
    rw [hshort] at hnat
    have hpos := (hsmall n).1
    omega
  · rw [← UInt16.toNat_inj, hshort, hshort, UInt32.toNat_inj]
    exact hmod i j

end Init
end Suil.Dns
