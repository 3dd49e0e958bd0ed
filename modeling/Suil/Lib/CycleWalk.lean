import Mathlib.Data.List.Nodup
import Mathlib.Data.List.Perm.Basic
import Mathlib.Data.Nat.ModEq

/-! Cycle walking: a counter goes on until the value of its state passes a test. Where each
stretch of `K` values lists the same set, the results go round those that pass. -/
namespace CycleWalk

variable {σ β : Type*}

section Walk
variable (value : σ → β) (step : σ → σ) (test : β → Bool)

/-- The next value that passes, with the state behind it; `none` if it is not among the first
`fuel`. -/
def first : ℕ → σ → Option (β × σ)
  | 0, _ => none
  | fuel + 1, s => if test (value s) then some (value s, step s) else first fuel (step s)

/-- The result that comes after `n` others. -/
def nth (fuel : ℕ) : ℕ → σ → Option β
  | 0, s => (first value step test fuel s).map Prod.fst
  | n + 1, s => (first value step test fuel s).bind fun r => nth fuel n r.2

/-- The values of the next `n` states. -/
def orbit : ℕ → σ → List β
  | 0, _ => []
  | n + 1, s => value s :: orbit n (step s)

end Walk

variable {value : σ → β} {step : σ → σ} {test : β → Bool} {fuel n K L : ℕ} {s : σ} {v : β}
  {vs l : List β}

theorem orbit_eq_map (n : ℕ) (s : σ) :
    orbit value step n s = (List.range n).map fun i => value (step^[i] s) := by
  induction n generalizing s with
  | zero => rfl
  | succ n ih =>
    rw [orbit, ih, List.range_succ_eq_map, List.map_cons, List.map_map]
    rfl

/-- The first value that passes is found, and the others are still ahead. -/
theorem first_eq (h : (orbit value step n s).filter test = v :: vs) (hfuel : n ≤ fuel) :
    ∃ k t, k ≤ n ∧ first value step test fuel s = some (v, t) ∧
      (orbit value step k t).filter test = vs := by
  induction n generalizing fuel s with
  | zero => cases h
  | succ n ih =>
    obtain ⟨fuel, rfl⟩ := Nat.exists_eq_add_of_le' hfuel
    rw [orbit, List.filter_cons] at h
    by_cases ht : test (value s)
    · rw [if_pos ht] at h
      obtain ⟨hv, hvs⟩ := List.cons.inj h
      exact ⟨n, step s, Nat.le_succ n, by rw [← Nat.add_assoc, first, if_pos ht, hv], hvs⟩
    · rw [if_neg ht] at h
      obtain ⟨k, t, hk, hfirst, hrest⟩ := ih h (Nat.le_add_left n fuel)
      refine ⟨k, t, Nat.le_succ_of_le hk, ?_, hrest⟩
      rw [← Nat.add_assoc, first, if_neg ht]
      exact hfirst

/-- The values that pass come one after the other, and in their order. -/
theorem nth_eq (h : (orbit value step n s).filter test = vs) (hfuel : n ≤ fuel) {k : ℕ}
    (hk : k < vs.length) : nth value step test fuel k s = some vs[k] := by
  induction vs generalizing n s k with
  | nil => cases hk
  | cons v vs ih =>
    obtain ⟨m, t, hm, hfirst, hrest⟩ := first_eq h hfuel
    cases k with
    | zero => rw [nth, hfirst, Option.map_some, List.getElem_cons_zero]
    | succ k =>
      rw [nth, hfirst, Option.bind_some, List.getElem_cons_succ]
      exact ih hrest (Nat.le_trans hm hfuel) _

/-- Where each call has a result, the calls after `i` of them are those of another state. -/
theorem nth_add (htotal : ∀ s, ∃ r, first value step test fuel s = some r) (i : ℕ) (s : σ) :
    ∃ t, ∀ k, nth value step test fuel (i + k) s = nth value step test fuel k t := by
  induction i generalizing s with
  | zero => exact ⟨s, fun k => by rw [Nat.zero_add]⟩
  | succ i ih =>
    obtain ⟨r, hr⟩ := htotal s
    obtain ⟨t, ht⟩ := ih r.2
    exact ⟨t, fun k => by rw [Nat.succ_add, nth, hr, Option.bind_some, ht]⟩

/-- A sequence whose windows of length `L` all list the same set, each member once, goes round. -/
theorem eq_iff_modEq {f : ℕ → β} (hL : 0 < L)
    (hinj : ∀ i j k, j < L → k < L → f (i + j) = f (i + k) → j = k)
    (hcover : ∀ i m, ∃ k < L, f (i + k) = f m) (i j : ℕ) : f i = f j ↔ i ≡ j [MOD L] := by
  have hround : ∀ i, f (i + L) = f i := fun i => by
    obtain ⟨k, hk, heq⟩ := hcover i (i + L)
    cases k with
    | zero => exact heq.symm
    | succ k =>
      -- the window from `i + 1` on would hold the value twice
      have hshift : f (i + 1 + k) = f (i + 1 + (L - 1)) := by
        have hk' : i + 1 + k = i + (k + 1) := by omega
        have hL' : i + 1 + (L - 1) = i + L := by omega
        rw [hk', hL', heq]
      have := hinj (i + 1) k (L - 1) (by omega) (by omega) hshift
      omega
  have hmod : ∀ i, f i = f (i % L) := fun i => by
    induction i using Nat.strongRecOn with
    | ind i ih =>
      by_cases hi : i < L
      · rw [Nat.mod_eq_of_lt hi]
      · have hback : i - L + L = i := Nat.sub_add_cancel (Nat.le_of_not_lt hi)
        rw [← hback, hround, Nat.add_mod_right]
        exact ih _ (by omega)
  constructor
  · intro hij
    rw [hmod i, hmod j] at hij
    exact hinj 0 _ _ (Nat.mod_lt _ hL) (Nat.mod_lt _ hL) (by rwa [Nat.zero_add, Nat.zero_add])
  · intro hij
    rw [hmod i, hmod j, hij]

/-- Over every stretch of `K` values that lists the same set, the results go round the values
that pass. -/
theorem nth_periodic (hl : l.Nodup) (horbit : ∀ s, (orbit value step K s).Perm l)
    (hpos : 0 < (l.filter test).length) (hfuel : K ≤ fuel) (s : σ) :
    ∃ f : ℕ → β, (∀ n, nth value step test fuel n s = some (f n)) ∧
      (∀ n, f n ∈ l.filter test) ∧
      (∀ v ∈ l.filter test, ∀ i, ∃ k < (l.filter test).length, f (i + k) = v) ∧
      ∀ i j, f i = f j ↔ i ≡ j [MOD (l.filter test).length] := by
  have hperm : ∀ s, ((orbit value step K s).filter test).Perm (l.filter test) := fun s =>
    (horbit s).filter test
  have htotal : ∀ s, ∃ r, first value step test fuel s = some r := fun s => by
    cases hvs : (orbit value step K s).filter test with
    | nil => rw [← (hperm s).length_eq, hvs] at hpos; cases hpos
    | cons v vs =>
      obtain ⟨k, t, _, hfirst, _⟩ := first_eq hvs hfuel
      exact ⟨_, hfirst⟩
  -- a window of results, from the state that the calls before it leave
  have hwindow : ∀ i, ∃ vs : List β, vs.Perm (l.filter test) ∧
      ∀ k (hk : k < vs.length), nth value step test fuel (i + k) s = some vs[k] := fun i => by
    obtain ⟨t, ht⟩ := nth_add htotal i s
    exact ⟨_, hperm t, fun k hk => (ht k).trans (nth_eq rfl hfuel hk)⟩
  have hsome : ∀ n, ∃ v, nth value step test fuel n s = some v := fun n => by
    obtain ⟨vs, hvs, hnth⟩ := hwindow n
    exact ⟨_, hnth 0 (hvs.length_eq ▸ hpos)⟩
  choose f hf using hsome
  have hget : ∀ i, ∃ vs : List β, vs.Perm (l.filter test) ∧
      ∀ k (hk : k < vs.length), f (i + k) = vs[k] := fun i => by
    obtain ⟨vs, hvs, hnth⟩ := hwindow i
    exact ⟨vs, hvs, fun k hk => Option.some.inj ((hf (i + k)).symm.trans (hnth k hk))⟩
  have hmem : ∀ n, f n ∈ l.filter test := fun n => by
    obtain ⟨vs, hvs, hf⟩ := hget n
    have hzero : 0 < vs.length := hvs.length_eq ▸ hpos
    exact hvs.mem_iff.mp (hf 0 hzero ▸ List.getElem_mem hzero)
  have hcover : ∀ v ∈ l.filter test, ∀ i, ∃ k < (l.filter test).length, f (i + k) = v :=
    fun v hv i => by
      obtain ⟨vs, hvs, hf⟩ := hget i
      obtain ⟨k, hk, hkv⟩ := List.mem_iff_getElem.mp (hvs.mem_iff.mpr hv)
      exact ⟨k, hvs.length_eq ▸ hk, (hf k hk).trans hkv⟩
  refine ⟨f, hf, hmem, hcover, eq_iff_modEq hpos (fun i j k hj hk hjk => ?_)
    fun i m => hcover _ (hmem m) i⟩
  obtain ⟨vs, hvs, hf⟩ := hget i
  rw [← hvs.length_eq] at hj hk
  rw [hf j hj, hf k hk] at hjk
  exact (hvs.nodup_iff.mpr (hl.filter test)).getElem_inj_iff.mp hjk

end CycleWalk
