import Suil.Dns.Labels
import Suil.Lib.Walk

/-! `dns_d_expand` on a packet from anywhere: when it comes to an end, and what it touches. -/
namespace Suil.Dns
open Walk

/-- Where the next label is looked for, behind the one that is found from `src` on. -/
def behindLabel (P : DnsPacket) (src : ℕ) : Option ℕ :=
  let r := dnsLExpand P.data P.end_ src
  if r.1 = [] then none else some r.2

/-- A last round finds no label, and leaves a NUL in the buffer. -/
structure Last (lim : ℕ) (P : DnsPacket) (src nptrs : ℕ) (r : Except DnsErrno ℕ × Bytes) : Prop where
  label : (dnsLExpandFrom P.data P.end_ (127 - nptrs) src).1 = []
  nul : 0 < lim → ∃ k < lim, r.2 k = 0

variable {lim : ℕ} {P P' : DnsPacket} {fuel src dstp nptrs : ℕ} {dst : Bytes}
  {r : Except DnsErrno ℕ × Bytes}

theorem terminate_of_ge {i q : ℕ} (h : q ≥ lim) : terminate dst lim i q = dst q := by
  rw [terminate]
  split
  · exact Function.update_of_ne (by omega) _ _
  · rfl

theorem terminate_nul {i : ℕ} (h : 0 < lim) : ∃ k < lim, terminate dst lim i k = 0 :=
  ⟨min i (lim - 1), by omega, by rw [terminate, if_pos h, Function.update_self]⟩

theorem put_of_ge {i q : ℕ} {b : UInt8} (h : q ≥ lim) : put dst lim i b q = dst q := by
  rw [put]
  split
  · exact Function.update_of_ne (by omega) _ _
  · rfl

theorem putAll_of_ge {i q : ℕ} {bs : List UInt8} (h : q ≥ lim) : putAll dst lim i bs q = dst q := by
  induction bs generalizing dst i with
  | nil => rfl
  | cons b bs ih => rw [putAll, ih, put_of_ge h]

/-- One round: the last one, over a pointer, or over a label. -/
theorem dnsDExpandFrom_cases (lim : ℕ) (P : DnsPacket) (dst : Bytes) (src dstp nptrs : ℕ)
    (hnptrs : nptrs ≤ 127) :
    (∃ r, Last lim P src nptrs r ∧
      ∀ fuel, dnsDExpandFrom lim P (fuel + 1) dst src dstp nptrs = some r) ∨
    (src < P.end_ ∧ lead (P.data src) = .pointer ∧ nptrs < 127 ∧ src + 2 ≤ P.end_ ∧
      ∀ fuel, dnsDExpandFrom lim P (fuel + 1) dst src dstp nptrs =
        dnsDExpandFrom lim P fuel dst (target P.data src) dstp (nptrs + 1)) ∨
    ∃ len dst', lead (P.data src) = .follows len ∧ 0 < len ∧ src + 1 + len ≤ P.end_ ∧
      ∀ fuel, dnsDExpandFrom lim P (fuel + 1) dst src dstp nptrs =
        dnsDExpandFrom lim P fuel dst' (src + 1 + len) (dstp + len + 1) 0 := by
  have hillegal : (dnsLExpandFrom P.data P.end_ (127 - nptrs) src).1 = [] →
      Last lim P src nptrs (.error .DNS_EILLEGAL, terminate dst lim dstp) := fun h =>
    ⟨h, terminate_nul⟩
  by_cases hlt : src < P.end_
  · have hexpand := dnsLExpandFrom.eq_def P.data P.end_ (127 - nptrs) src
    rw [if_neg (by omega)] at hexpand
    cases hlead : lead (P.data src) with
    | follows len =>
      simp only [hlead] at hexpand
      by_cases hzero : len = 0
      · have hroot : (dnsLExpandFrom P.data P.end_ (127 - nptrs) src).1 = [] := by
          rw [hexpand, hzero, if_neg (by omega)]
          rfl
        left
        by_cases hfirst : dstp = 0
        · exact ⟨(.ok (dstp + 1), terminate (put dst lim dstp '.'.toUInt8) lim (dstp + 1)),
            ⟨hroot, terminate_nul⟩, fun fuel => by
            simp only [dnsDExpandFrom, dnsDExpandRound, if_pos hlt, hlead, if_pos hzero,
              if_pos hfirst]⟩
        · exact ⟨(.ok dstp, terminate dst lim dstp), ⟨hroot, terminate_nul⟩, fun fuel => by
            simp only [dnsDExpandFrom, dnsDExpandRound, if_pos hlt, hlead, if_pos hzero,
              if_neg hfirst]⟩
      · by_cases hlen : P.end_ - (src + 1) < len
        · refine .inl ⟨_, hillegal ?_, fun fuel => by
            simp only [dnsDExpandFrom, dnsDExpandRound, if_pos hlt, hlead, if_neg hzero, if_pos hlen]⟩
          rw [hexpand, if_pos hlen]
        · exact .inr (.inr ⟨len, put (putAll dst lim dstp (bytesAt P.data (src + 1) len)) lim
            (dstp + len) '.'.toUInt8, rfl, by omega, by omega, fun fuel => by
            simp only [dnsDExpandFrom, dnsDExpandRound, if_pos hlt, hlead, if_neg hzero,
              if_neg hlen]⟩)
    | reserved =>
      simp only [hlead] at hexpand
      exact .inl ⟨_, hillegal (by rw [hexpand]), fun fuel => by
        simp only [dnsDExpandFrom, dnsDExpandRound, if_pos hlt, hlead]⟩
    | pointer =>
      simp only [hlead] at hexpand
      by_cases hmany : nptrs + 1 > 127
      · have hhops : 127 - nptrs = 0 := by omega
        rw [hhops] at hexpand
        exact .inl ⟨_, hillegal (by rw [hhops, hexpand]), fun fuel => by
          simp only [dnsDExpandFrom, dnsDExpandRound, if_pos hlt, hlead, if_pos hmany]⟩
      · by_cases hshort : P.end_ - src < 2
        · obtain ⟨hops, hhops⟩ := Nat.exists_eq_add_of_le' (by omega : 1 ≤ 127 - nptrs)
          rw [hhops] at hexpand
          simp only [if_pos hshort] at hexpand
          exact .inl ⟨_, hillegal (by rw [hhops, hexpand]), fun fuel => by
            simp only [dnsDExpandFrom, dnsDExpandRound, if_pos hlt, hlead, if_neg hmany, if_pos hshort]⟩
        · exact .inr (.inl ⟨hlt, rfl, by omega, by omega, fun fuel => by
            simp only [dnsDExpandFrom, dnsDExpandRound, if_pos hlt, hlead, if_neg hmany, if_neg hshort]⟩)
  · left
    refine ⟨_, hillegal ?_, fun fuel => by rw [dnsDExpandFrom, dnsDExpandRound, if_neg hlt]⟩
    rw [dnsLExpandFrom.eq_def, if_pos (Nat.le_of_not_lt hlt)]

theorem dnsDExpandFrom_succ (hnptrs : nptrs ≤ 127)
    (h : dnsDExpandFrom lim P fuel dst src dstp nptrs = some r) :
    dnsDExpandFrom lim P (fuel + 1) dst src dstp nptrs = some r := by
  induction fuel generalizing dst src dstp nptrs with
  | zero => cases h
  | succ fuel ih =>
    rcases dnsDExpandFrom_cases lim P dst src dstp nptrs hnptrs with
      ⟨r', _, hrun⟩ | ⟨_, _, hmany, _, hrun⟩ | ⟨len, dst', _, _, _, hrun⟩
    · rw [hrun] at h ⊢
      exact h
    · rw [hrun] at h ⊢
      exact ih hmany h
    · rw [hrun] at h ⊢
      exact ih (Nat.zero_le 127) h

theorem dnsDExpandFrom_le {fuel' : ℕ} (hnptrs : nptrs ≤ 127)
    (h : dnsDExpandFrom lim P fuel dst src dstp nptrs = some r) (hle : fuel ≤ fuel') :
    dnsDExpandFrom lim P fuel' dst src dstp nptrs = some r := by
  induction hle with
  | refl => exact h
  | step _ ih => exact dnsDExpandFrom_succ hnptrs ih

/-- After `k` rounds the loop stands where `dns_l_expand` says, or is over if there is no label. -/
def Reaches (lim : ℕ) (P : DnsPacket) (dst : Bytes) (src dstp nptrs k : ℕ)
    (found : List UInt8 × ℕ) : Prop :=
  (found.1 = [] → ∃ r, ∀ fuel, dnsDExpandFrom lim P (fuel + k) dst src dstp nptrs = some r) ∧
  (found.1 ≠ [] → found.2 ≤ P.end_ ∧ ∃ dst' dstp', ∀ fuel,
    dnsDExpandFrom lim P (fuel + k) dst src dstp nptrs =
      dnsDExpandFrom lim P fuel dst' found.2 dstp' 0)

theorem dnsLExpandFrom_follows {hops len : ℕ} (hlead : lead (P.data src) = .follows len)
    (hfit : src + 1 + len ≤ P.end_) : dnsLExpandFrom P.data P.end_ hops src =
      (bytesAt P.data (src + 1) len, src + 1 + len) := by
  rw [dnsLExpandFrom.eq_def, if_neg (by omega), hlead]
  exact if_neg (by omega)

theorem dnsLExpandFrom_pointer {hops : ℕ} (hlead : lead (P.data src) = .pointer)
    (hfit : src + 2 ≤ P.end_) : dnsLExpandFrom P.data P.end_ (hops + 1) src =
      dnsLExpandFrom P.data P.end_ hops (target P.data src) := by
  rw [dnsLExpandFrom.eq_def, if_neg (by omega), hlead]
  exact if_neg (by omega)

/-- A round that does not follow a pointer. -/
theorem reaches_or_pointer (hops : ℕ) (hnptrs : nptrs + hops = 127) (dst : Bytes) (dstp : ℕ) :
    Reaches lim P dst src dstp nptrs 1 (dnsLExpandFrom P.data P.end_ hops src) ∨
    (nptrs < 127 ∧ lead (P.data src) = .pointer ∧ src + 2 ≤ P.end_ ∧
      ∀ fuel, dnsDExpandFrom lim P (fuel + 1) dst src dstp nptrs =
        dnsDExpandFrom lim P fuel dst (target P.data src) dstp (nptrs + 1)) := by
  have hhops : 127 - nptrs = hops := by omega
  rcases dnsDExpandFrom_cases lim P dst src dstp nptrs (by omega) with
    ⟨r, hlast, hrun⟩ | ⟨_, hlead, hmany, hfit, hrun⟩ | ⟨len, dst', hlead, hpos, hfit, hrun⟩
  · exact .inl ⟨fun _ => ⟨r, hrun⟩, fun hne => absurd (hhops ▸ hlast.label) hne⟩
  · exact .inr ⟨hmany, hlead, hfit, hrun⟩
  · left
    rw [dnsLExpandFrom_follows hlead hfit]
    have hne : bytesAt P.data (src + 1) len ≠ [] := List.ne_nil_of_length_pos (by
      rw [length_bytesAt]; exact hpos)
    exact ⟨fun hnil => absurd hnil hne, fun _ => ⟨hfit, dst', _, hrun⟩⟩

/-- The rounds up to the next label are those of `dns_l_expand`. -/
theorem dnsDExpandFrom_label (lim : ℕ) (P : DnsPacket) (src hops : ℕ) (hnptrs : nptrs + hops = 127)
    (dst : Bytes) (dstp : ℕ) :
    ∃ k, 1 ≤ k ∧ k ≤ hops + 1 ∧
      Reaches lim P dst src dstp nptrs k (dnsLExpandFrom P.data P.end_ hops src) := by
  induction hops generalizing src nptrs with
  | zero =>
    rcases reaches_or_pointer 0 hnptrs dst dstp with hreach | ⟨hmany, _⟩
    · exact ⟨1, Nat.le_refl 1, Nat.le_refl 1, hreach⟩
    · omega
  | succ hops ih =>
    rcases reaches_or_pointer (hops + 1) hnptrs dst dstp with hreach | ⟨_, hlead, hfit, hrun⟩
    · exact ⟨1, Nat.le_refl 1, by omega, hreach⟩
    · obtain ⟨k, hk, hle, hnil, hcons⟩ := ih (target P.data src) (by omega : nptrs + 1 + hops = 127)
      rw [dnsLExpandFrom_pointer hlead hfit]
      refine ⟨k + 1, by omega, by omega, fun h => ?_, fun h => ?_⟩
      · obtain ⟨r, hr⟩ := hnil h
        exact ⟨r, fun fuel => (hrun (fuel + k)).trans (hr fuel)⟩
      · obtain ⟨hend, dst', dstp', hr⟩ := hcons h
        exact ⟨hend, dst', dstp', fun fuel => (hrun (fuel + k)).trans (hr fuel)⟩

theorem behindLabel_of_ne (h : (dnsLExpand P.data P.end_ src).1 ≠ []) :
    behindLabel P src = some (dnsLExpand P.data P.end_ src).2 := if_neg h

theorem behindLabel_of_eq (h : (dnsLExpand P.data P.end_ src).1 = []) : behindLabel P src = none :=
  if_pos h

theorem behindLabel_mem {q : ℕ} (h : behindLabel P src = some q) :
    q ∈ Finset.range (P.end_ + 1) := by
  by_cases hnil : (dnsLExpand P.data P.end_ src).1 = []
  · rw [behindLabel_of_eq hnil] at h
    cases h
  · obtain ⟨k, _, _, _, hcons⟩ := dnsDExpandFrom_label 0 P src 127 (Nat.zero_add 127) (fun _ => 0) 0
    rw [behindLabel_of_ne hnil] at h
    rw [Finset.mem_range, ← Option.some.inj h]
    exact Nat.lt_succ_of_le (hcons hnil).1

theorem dnsDExpandFrom_of_ends {n : ℕ} (h : walk (behindLabel P) n src = none) (dst : Bytes)
    (dstp : ℕ) : ∃ r, dnsDExpandFrom lim P (128 * n) dst src dstp 0 = some r := by
  induction n generalizing src dst dstp with
  | zero => cases h
  | succ n ih =>
    obtain ⟨k, hk, hle, hnil, hcons⟩ := dnsDExpandFrom_label lim P src 127 (Nat.zero_add 127) dst dstp
    have hsplit : 128 * (n + 1) = 128 * n + (128 - k) + k := by omega
    rw [hsplit]
    by_cases hlabel : (dnsLExpand P.data P.end_ src).1 = []
    · obtain ⟨r, hr⟩ := hnil hlabel
      exact ⟨r, hr _⟩
    · obtain ⟨_, dst', dstp', hr⟩ := hcons hlabel
      rw [walk, behindLabel_of_ne hlabel, Option.bind_some] at h
      obtain ⟨r, hrest⟩ := ih h dst' dstp'
      exact ⟨r, (hr _).trans (dnsDExpandFrom_le (Nat.zero_le 127) hrest (Nat.le_add_right _ _))⟩

theorem dnsDExpandFrom_of_goes_on (h : ∀ n, walk (behindLabel P) n src ≠ none) (fuel : ℕ)
    (dst : Bytes) (dstp : ℕ) : dnsDExpandFrom lim P fuel dst src dstp 0 = none := by
  induction fuel generalizing src dst dstp with
  | zero => rfl
  | succ fuel ih =>
    obtain ⟨k, hk, _, _, hcons⟩ := dnsDExpandFrom_label lim P src 127 (Nat.zero_add 127) dst dstp
    have hlabel : (dnsLExpand P.data P.end_ src).1 ≠ [] := fun hnil =>
      h 1 (by rw [walk, behindLabel_of_eq hnil, Option.bind_none])
    obtain ⟨_, dst', dstp', hr⟩ := hcons hlabel
    have hnext : ∀ n, walk (behindLabel P) n (dnsLExpand P.data P.end_ src).2 ≠ none := fun n hn =>
      h (n + 1) (by rw [walk, behindLabel_of_ne hlabel, Option.bind_some, hn])
    cases hrun : dnsDExpandFrom lim P (fuel + 1) dst src dstp 0 with
    | none => rfl
    | some r =>
      -- a result would still be there with more fuel, and then come from the label behind
      have hmore := dnsDExpandFrom_le (Nat.zero_le 127) hrun (by omega : fuel + 1 ≤ fuel + k)
      have hnone : dnsDExpandFrom lim P fuel dst' (dnsLExpand P.data P.end_ src).2 dstp' 0 = none :=
        ih hnext dst' dstp'
      exact absurd (hmore.symm.trans ((hr fuel).trans hnone)) (by simp)

/-- The labels of a name never lead back to where one of them has been looked for. -/
def NoReturn (P : DnsPacket) (src : ℕ) : Prop :=
  ∀ i j p, walk (behindLabel P) i src = some p → walk (behindLabel P) j src = some p → i = j

theorem noReturn_iff : NoReturn P src ↔ walk (behindLabel P) (P.end_ + 2) src = none := by
  have hends := ends_iff (fun a b (h : behindLabel P a = some b) => behindLabel_mem h) src
  rw [Finset.card_range] at hends
  exact hends.symm

theorem NoReturn.ends (h : NoReturn P src) (dst : Bytes) (hfuel : 128 * (P.end_ + 2) ≤ fuel) :
    ∃ r, dnsDExpand fuel dst lim src P = some r := by
  obtain ⟨r, hr⟩ := dnsDExpandFrom_of_ends (noReturn_iff.mp h) dst 0
  exact ⟨r, dnsDExpandFrom_le (Nat.zero_le 127) hr hfuel⟩

/-- `dns_d_expand` comes to an end if and only if the name does not lead back into itself, since
the count of pointers starts again behind every label. -/
theorem dnsDExpand_ends_iff (dst : Bytes) (lim src : ℕ) (P : DnsPacket) :
    (NoReturn P src → ∀ fuel ≥ 128 * (P.end_ + 2), ∃ r, dnsDExpand fuel dst lim src P = some r) ∧
    (¬ NoReturn P src → ∀ fuel, dnsDExpand fuel dst lim src P = none) := by
  constructor
  · exact fun h fuel hfuel => h.ends dst hfuel
  · intro h fuel
    exact dnsDExpandFrom_of_goes_on (fun n hn => h fun i j p => eq_of_ends hn) fuel dst 0

/-- The packet of one label and a pointer to it. -/
def looping : DnsPacket :=
  { dnsPInit 16 (fun q => [1, 97, 0xc0, 12].getD (q - 12) 0) (by decide) (by decide) with
    end_ := 16, end_le := Nat.le_refl 16 }

example : behindLabel looping 12 = some 14 ∧ behindLabel looping 14 = some 14 := by decide

section Confined
variable {data data' : Bytes} {end_ : ℕ}

/-- The bytes of both are the same before the end. -/
def Agree (end_ : ℕ) (data data' : Bytes) : Prop := ∀ q < end_, data' q = data q

theorem Agree.bytesAt (h : Agree end_ data data') {len : ℕ} (hlen : src + len ≤ end_) :
    bytesAt data' src len = bytesAt data src len :=
  bytesAt_congr fun k hk => h _ (by omega)

theorem Agree.target (h : Agree end_ data data') (hlen : src + 2 ≤ end_) :
    target data' src = target data src := by
  rw [Suil.Dns.target, Suil.Dns.target, h src (by omega), h (src + 1) (by omega)]

theorem dnsLExpandFrom_congr (h : Agree end_ data data') (hops src : ℕ) :
    dnsLExpandFrom data' end_ hops src = dnsLExpandFrom data end_ hops src := by
  induction hops using Nat.strongRecOn generalizing src with
  | ind hops ih =>
    rw [dnsLExpandFrom.eq_def, dnsLExpandFrom.eq_def data]
    by_cases hlt : end_ ≤ src
    · rw [if_pos hlt, if_pos hlt]
    · rw [if_neg hlt, if_neg hlt, h src (by omega)]
      cases lead (data src) with
      | follows len =>
        by_cases hlen : end_ - (src + 1) < len
        · simp only [if_pos hlen]
        · simp only [if_neg hlen, h.bytesAt (by omega : src + 1 + len ≤ end_)]
      | reserved => rfl
      | pointer =>
        cases hops with
        | zero => rfl
        | succ hops =>
          by_cases hshort : end_ - src < 2
          · simp only [if_pos hshort]
          · simp only [if_neg hshort, h.target (by omega : src + 2 ≤ end_),
              ih hops (Nat.lt_succ_self hops)]

theorem dnsLSkip_congr (h : Agree end_ data data') (src : ℕ) :
    dnsLSkip data' end_ src = dnsLSkip data end_ src := by
  rw [dnsLSkip, dnsLSkip]
  by_cases hlt : end_ ≤ src
  · rw [if_pos hlt, if_pos hlt]
  · rw [if_neg hlt, if_neg hlt, h src (by omega)]

theorem dnsDSkip_congr (hend : P'.end_ = P.end_) (h : Agree P.end_ P.data P'.data) (src : ℕ) :
    dnsDSkip P' src = dnsDSkip P src := by
  induction src using dnsDSkip.induct P with
  | case1 src hlt hlead =>
    rw [dnsDSkip, dnsDSkip.eq_def P, hend, h src hlt, hlead]
    simp only [reduceIte]
  | case2 src hlt len hlead hne hfit ih =>
    rw [dnsDSkip, dnsDSkip.eq_def P, hend, h src hlt, hlead]
    simp only [if_pos hfit, ih]
  | case3 src hlt len hlead hne hfit =>
    rw [dnsDSkip, dnsDSkip.eq_def P, hend, h src hlt, hlead]
    simp only [if_neg hfit]
  | case4 src hlt hlead => rw [dnsDSkip, dnsDSkip.eq_def P, hend, h src hlt, hlead]
  | case5 src hlt hlead _ => rw [dnsDSkip, dnsDSkip.eq_def P, hend, h src hlt, hlead]
  | case6 src hlt hlead _ => rw [dnsDSkip, dnsDSkip.eq_def P, hend, h src hlt, hlead]
  | case7 src hlt => rw [dnsDSkip, dnsDSkip.eq_def P, hend, if_neg hlt, if_neg hlt]

theorem dnsDExpandRound_congr (hend : P'.end_ = P.end_) (h : Agree P.end_ P.data P'.data)
    (dst : Bytes) (src dstp nptrs : ℕ) :
    dnsDExpandRound lim P' dst src dstp nptrs = dnsDExpandRound lim P dst src dstp nptrs := by
  simp only [dnsDExpandRound, hend]
  by_cases hlt : src < P.end_
  · rw [if_pos hlt, if_pos hlt, h src hlt]
    cases lead (P.data src) with
    | follows len =>
      by_cases hlen : P.end_ - (src + 1) < len
      · simp only [if_pos hlen]
      · simp only [if_neg hlen, h.bytesAt (by omega : src + 1 + len ≤ P.end_)]
    | reserved => rfl
    | pointer =>
      by_cases hshort : P.end_ - src < 2
      · simp only [if_pos hshort]
      · simp only [if_neg hshort, h.target (by omega : src + 2 ≤ P.end_)]
  · rw [if_neg hlt, if_neg hlt]

theorem dnsDExpandFrom_congr (hend : P'.end_ = P.end_) (h : Agree P.end_ P.data P'.data)
    (fuel : ℕ) (dst : Bytes) (src dstp nptrs : ℕ) :
    dnsDExpandFrom lim P' fuel dst src dstp nptrs = dnsDExpandFrom lim P fuel dst src dstp nptrs := by
  induction fuel generalizing dst src dstp nptrs with
  | zero => rfl
  | succ fuel ih => simp only [dnsDExpandFrom, dnsDExpandRound_congr hend h, ih]

theorem dnsDExpandBuffer_congr (hend : P'.end_ = P.end_) (h : Agree P.end_ P.data P'.data)
    (n : ℕ) (dst : Bytes) (src dstp nptrs : ℕ) :
    dnsDExpandBuffer lim P' n dst src dstp nptrs = dnsDExpandBuffer lim P n dst src dstp nptrs := by
  induction n generalizing dst src dstp nptrs with
  | zero => rfl
  | succ n ih => simp only [dnsDExpandBuffer, dnsDExpandRound_congr hend h, ih]

/-- A round writes before the limit only. -/
theorem dnsDExpandRound_outside (lim : ℕ) (P : DnsPacket) (dst : Bytes) (src dstp nptrs : ℕ) {q : ℕ}
    (hq : q ≥ lim) : (dnsDExpandRound lim P dst src dstp nptrs).1 q = dst q := by
  unfold dnsDExpandRound
  by_cases hlt : src < P.end_
  · rw [if_pos hlt]
    cases lead (P.data src) with
    | follows len =>
      dsimp only
      split_ifs
      · exact (terminate_of_ge hq).trans (put_of_ge hq)
      · exact terminate_of_ge hq
      · exact terminate_of_ge hq
      · exact (put_of_ge hq).trans (putAll_of_ge hq)
    | reserved => exact terminate_of_ge hq
    | pointer =>
      dsimp only
      split_ifs
      · exact terminate_of_ge hq
      · exact terminate_of_ge hq
      · rfl
  · rw [if_neg hlt]
    exact terminate_of_ge hq

theorem dnsDExpandBuffer_outside (n : ℕ) (dst : Bytes) (src dstp nptrs : ℕ) {q : ℕ} (hq : q ≥ lim) :
    dnsDExpandBuffer lim P n dst src dstp nptrs q = dst q := by
  induction n generalizing dst src dstp nptrs with
  | zero => rfl
  | succ n ih =>
    have hround := dnsDExpandRound_outside lim P dst src dstp nptrs hq
    rw [dnsDExpandBuffer]
    cases hrun : dnsDExpandRound lim P dst src dstp nptrs with
    | mk dst' round =>
      rw [hrun] at hround
      cases round with
      | ended r => exact hround
      | goesOn src dstp nptrs => exact (ih dst' src dstp nptrs).trans hround

/-- The result is what the last round leaves in the buffer. -/
theorem dnsDExpandFrom_buffer (h : dnsDExpandFrom lim P fuel dst src dstp nptrs = some r) :
    r.2 = dnsDExpandBuffer lim P fuel dst src dstp nptrs := by
  induction fuel generalizing dst src dstp nptrs with
  | zero => cases h
  | succ fuel ih =>
    rw [dnsDExpandFrom] at h
    rw [dnsDExpandBuffer]
    cases hrun : dnsDExpandRound lim P dst src dstp nptrs with
    | mk dst' round =>
      rw [hrun] at h
      cases round with
      | ended r' => rw [← Option.some.inj h]
      | goesOn src dstp nptrs => exact ih h

theorem dnsDExpandFrom_nul (hnptrs : nptrs ≤ 127)
    (h : dnsDExpandFrom lim P fuel dst src dstp nptrs = some r) (hlim : 0 < lim) :
    ∃ k < lim, r.2 k = 0 := by
  induction fuel generalizing dst src dstp nptrs with
  | zero => cases h
  | succ fuel ih =>
    rcases dnsDExpandFrom_cases lim P dst src dstp nptrs hnptrs with
      ⟨r', hlast, hrun⟩ | ⟨_, _, hmany, _, hrun⟩ | ⟨len, dst', _, _, _, hrun⟩
    · rw [hrun] at h
      exact Option.some.inj h ▸ hlast.nul hlim
    · rw [hrun] at h
      exact ih hmany h
    · rw [hrun] at h
      exact ih (Nat.zero_le 127) h

/-- The packet `P'` is read as `P` is, by the functions for names and by each round of the loop of
`dns_d_expand`. -/
structure ReadAlike (P P' : DnsPacket) (dst : Bytes) (lim src : ℕ) : Prop where
  label : dnsLExpand P'.data P'.end_ src = dnsLExpand P.data P.end_ src
  skipLabel : dnsLSkip P'.data P'.end_ src = dnsLSkip P.data P.end_ src
  skip : dnsDSkip P' src = dnsDSkip P src
  buffer : ∀ n, dnsDExpandBuffer lim P' n dst src 0 0 = dnsDExpandBuffer lim P n dst src 0 0
  result : ∀ fuel, dnsDExpand fuel dst lim src P' = dnsDExpand fuel dst lim src P

/-- Whatever the packet holds, a name is read before its end only; the loop of `dns_d_expand` writes
before the limit only, however long it goes on, and where the name does not lead back into itself it
ends and leaves a NUL. -/
theorem names_confined (P P' : DnsPacket) (hend : P'.end_ = P.end_)
    (h : Agree P.end_ P.data P'.data) (dst : Bytes) (lim src : ℕ) :
    ReadAlike P P' dst lim src ∧
    (∀ n, ∀ q ≥ lim, dnsDExpandBuffer lim P n dst src 0 0 q = dst q) ∧
    (∀ fuel r, dnsDExpand fuel dst lim src P = some r →
      r.2 = dnsDExpandBuffer lim P fuel dst src 0 0 ∧ (0 < lim → ∃ k < lim, r.2 k = 0)) ∧
    (NoReturn P src → ∀ fuel ≥ 128 * (P.end_ + 2), ∃ r, dnsDExpand fuel dst lim src P = some r) := by
  refine ⟨?_, ?_, ?_, ?_⟩
  · constructor
    · rw [hend]
      exact dnsLExpandFrom_congr h 127 src
    · rw [hend]
      exact dnsLSkip_congr h src
    · exact dnsDSkip_congr hend h src
    · exact fun n => dnsDExpandBuffer_congr hend h n dst src 0 0
    · exact fun fuel => dnsDExpandFrom_congr hend h fuel dst src 0 0
  · exact fun n q hq => dnsDExpandBuffer_outside n dst src 0 0 hq
  · exact fun fuel r hr => ⟨dnsDExpandFrom_buffer hr, dnsDExpandFrom_nul (Nat.zero_le 127) hr⟩
  · exact fun hno fuel hfuel => hno.ends dst hfuel

/-- The name `b.a.`, which ends with a pointer to the name `a.`, and a byte behind the packet. -/
def pointing (behind : UInt8) : DnsPacket :=
  { dnsPInit 20 (fun q => [1, 97, 0, 1, 98, 0xc0, 12, behind].getD (q - 12) 0) (by decide)
      (by decide) with end_ := 19, end_le := Nat.le_succ 19 }

theorem names_confined_pointing : ReadAlike (pointing 7) (pointing 0) (fun _ => 0x2a) 3 15 ∧
    (∀ n, ∀ q ≥ 3, dnsDExpandBuffer 3 (pointing 7) n (fun _ => 0x2a) 15 0 0 q = 0x2a) ∧
    ∃ r, dnsDExpand 2688 (fun _ => 0x2a) 3 15 (pointing 7) = some r ∧ ∃ k < 3, r.2 k = 0 := by
  have hagree : ∀ q < 19, (pointing 0).data q = (pointing 7).data q := by decide
  have hends : NoReturn (pointing 7) 15 := fun i j p =>
    eq_of_ends (by decide : walk (behindLabel (pointing 7)) 3 15 = none)
  obtain ⟨halike, houtside, hnul, hresult⟩ :=
    names_confined (pointing 7) (pointing 0) rfl hagree (fun _ => 0x2a) 3 15
  obtain ⟨r, hr⟩ := hresult hends 2688 (by decide)
  exact ⟨halike, houtside, r, hr, (hnul 2688 r hr).2 (by decide)⟩

end Confined
end Suil.Dns
