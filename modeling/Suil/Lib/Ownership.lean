import Mathlib.Data.Nat.Notation
import Mathlib.Logic.Function.Basic
import Mathlib.Tactic.SplitIfs

/-! Resources with one holder each: a resource is acquired, is held by at most one
holder, and is released once unless it has been given away. -/
namespace Ownership

/-- What every holder holds, which resources are live, and the resources acquired,
released and given away so far. -/
structure Ledger (H R : Type*) where
  held : H → Option R
  live : R → Bool
  acquired : List R
  released : List R
  given : List R

namespace Ledger
variable {H R : Type*}

section
variable [DecidableEq R]

def acquire (L : Ledger H R) (r : R) : Ledger H R :=
  { L with live := Function.update L.live r true, acquired := r :: L.acquired }

def release (L : Ledger H R) (r : R) : Ledger H R :=
  { L with live := Function.update L.live r false, released := r :: L.released }

end

def give (L : Ledger H R) (r : R) : Ledger H R := { L with given := r :: L.given }

def hold [DecidableEq H] (L : Ledger H R) (h : H) (x : Option R) : Ledger H R :=
  { L with held := Function.update L.held h x }

variable (L : Ledger H R) {h k : H} {r q : R} {x : Option R}

theorem acquire_live_iff [DecidableEq R] : (L.acquire r).live q ↔ q = r ∨ L.live q := by
  by_cases hq : q = r <;> simp [acquire, hq]

theorem release_live_iff [DecidableEq R] : (L.release r).live q ↔ q ≠ r ∧ L.live q := by
  by_cases hq : q = r <;> simp [release, hq]

variable [DecidableEq H]

theorem hold_held_iff :
    (L.hold h x).held k = some q ↔ k = h ∧ x = some q ∨ k ≠ h ∧ L.held k = some q := by
  by_cases hk : k = h <;> simp [hold, hk]

variable {L}

theorem hold_of_eq (hx : L.held h = x) : L.hold h x = L := by
  rw [← hx]
  simp [hold]

end Ledger

/-- Every resource was released as often as it was acquired, once less while it is live;
a live one has exactly one holder, or it was given away and has none. -/
structure Owned {H R : Type*} [DecidableEq R] (L : Ledger H R) : Prop where
  unique : ∀ {r h k}, L.held h = some r → L.held k = some r → h = k
  live : ∀ {r h}, L.held h = some r → L.live r
  once : ∀ r, L.released.count r + (if L.live r then 1 else 0) = L.acquired.count r
  kept : ∀ {r}, L.live r → r ∉ L.given → ∃ h, L.held h = some r
  given : ∀ {r}, r ∈ L.given → L.live r ∧ ∀ h, L.held h ≠ some r

namespace Owned
variable {H R : Type*} [DecidableEq R] {L : Ledger H R} {h k : H} {r : R}

/-- A live resource that nobody holds and that was not given away has leaked. -/
theorem not_of_leak (hlive : L.live r) (hgiven : r ∉ L.given) (hheld : ∀ h, L.held h ≠ some r) :
    ¬ Owned L := by
  intro hL
  obtain ⟨h, hh⟩ := hL.kept hlive hgiven
  exact hheld h hh

theorem not_of_dangling (hheld : L.held h = some r) (hdead : ¬ L.live r) : ¬ Owned L :=
  fun hL => hdead (hL.live hheld)

theorem not_given (hL : Owned L) (hh : L.held h = some r) : r ∉ L.given :=
  fun hg => (hL.given hg).2 h hh

theorem not_held (hL : Owned L) (hdead : ¬ L.live r) : L.held h ≠ some r :=
  fun hh => hdead (hL.live hh)

/-- What `h` held in `L` is live in `M` but nobody holds it any more. -/
theorem not_of_lost {M : Ledger H R} (hL : Owned L) (hh : L.held h = some r)
    (hlive : M.live = L.live) (hgiven : M.given = L.given) (hlost : M.held h ≠ some r)
    (hother : ∀ a, a ≠ h → M.held a = some r → L.held a = some r) : ¬ Owned M := by
  refine not_of_leak (r := r) (hlive ▸ hL.live hh) (hgiven ▸ hL.not_given hh) fun a ha => ?_
  by_cases hah : a = h
  · exact hlost (hah ▸ ha)
  · exact hah (hL.unique (hother a hah ha) hh)

theorem once_acquire (hL : Owned L) (hdead : ¬ L.live r) (q : R) :
    L.released.count q + (if (L.acquire r).live q then 1 else 0) = (r :: L.acquired).count q := by
  have := hL.once q
  simp only [L.acquire_live_iff, List.count_cons, beq_iff_eq]
  by_cases hq : r = q
  · subst hq
    simp only [hdead, or_false, if_true, Bool.false_eq_true, if_false] at this ⊢
    omega
  · have hq' : q ≠ r := fun h => hq h.symm
    simpa only [hq, hq', false_or, if_false, Nat.add_zero] using this

theorem once_release (hL : Owned L) (hlive : L.live r) (q : R) :
    (r :: L.released).count q + (if (L.release r).live q then 1 else 0) = L.acquired.count q := by
  have := hL.once q
  simp only [L.release_live_iff, List.count_cons, beq_iff_eq]
  by_cases hq : r = q
  · subst hq
    simp only [hlive, ne_eq, not_true_eq_false, false_and, if_true, if_false] at this ⊢
    omega
  · have hq' : q ≠ r := fun h => hq h.symm
    simpa only [hq, ne_eq, hq', not_false_eq_true, true_and, if_false, Nat.add_zero] using this

/-- Acquired and released again before anyone holds it. -/
theorem acquire_release (hL : Owned L) (hdead : ¬ L.live r) : Owned ((L.acquire r).release r) := by
  have hlive : ∀ q, ((L.acquire r).release r).live q ↔ L.live q := by
    intro q
    rw [Ledger.release_live_iff, Ledger.acquire_live_iff]
    by_cases hq : q = r
    · simp [hq, hdead]
    · simp [hq]
  constructor
  · exact hL.unique
  · exact fun ha => (hlive _).mpr (hL.live ha)
  · intro q
    have := hL.once q
    simp only [hlive q]
    simp only [Ledger.release, Ledger.acquire, List.count_cons]
    omega
  · exact fun ha hg => hL.kept ((hlive _).mp ha) hg
  · exact fun hq => ⟨(hlive _).mpr (hL.given hq).1, (hL.given hq).2⟩

variable [DecidableEq H]

theorem acquire_hold (hL : Owned L) (hdead : ¬ L.live r) (hfree : L.held h = none) :
    Owned ((L.acquire r).hold h (some r)) where
  unique {q a b} ha hb := by
    rcases (Ledger.hold_held_iff _).mp ha with ⟨hah, hr⟩ | ⟨-, ha'⟩ <;>
      rcases (Ledger.hold_held_iff _).mp hb with ⟨hbh, hr'⟩ | ⟨-, hb'⟩
    · exact hah.trans hbh.symm
    · exact absurd (hr ▸ hb') (hL.not_held hdead)
    · exact absurd (hr' ▸ ha') (hL.not_held hdead)
    · exact hL.unique ha' hb'
  live {q a} ha := by
    apply (L.acquire_live_iff).mpr
    rcases (Ledger.hold_held_iff _).mp ha with ⟨-, hr⟩ | ⟨-, ha⟩
    · exact .inl (Option.some.inj hr).symm
    · exact .inr (hL.live ha)
  once := hL.once_acquire hdead
  kept {q} hlive hgiven := by
    rcases (L.acquire_live_iff).mp hlive with rfl | hlive
    · exact ⟨h, (Ledger.hold_held_iff _).mpr (.inl ⟨rfl, rfl⟩)⟩
    · obtain ⟨a, ha⟩ := hL.kept hlive hgiven
      have hah : a ≠ h := by
        rintro rfl
        exact absurd (hfree.symm.trans ha) nofun
      exact ⟨a, (Ledger.hold_held_iff _).mpr (.inr ⟨hah, ha⟩)⟩
  given {q} hq := by
    obtain ⟨hlive, hno⟩ := hL.given hq
    refine ⟨(L.acquire_live_iff).mpr (.inr hlive), fun a ha => ?_⟩
    rcases (Ledger.hold_held_iff _).mp ha with ⟨-, hr⟩ | ⟨-, ha⟩
    · exact hdead (Option.some.inj hr ▸ hlive)
    · exact hno a ha

theorem release_hold (hL : Owned L) (hh : L.held h = some r) :
    Owned ((L.release r).hold h none) where
  unique {q a b} ha hb := by
    rcases (Ledger.hold_held_iff _).mp ha with ⟨-, hr⟩ | ⟨-, ha⟩
    · exact absurd hr nofun
    rcases (Ledger.hold_held_iff _).mp hb with ⟨-, hr⟩ | ⟨-, hb⟩
    · exact absurd hr nofun
    exact hL.unique ha hb
  live {q a} ha := by
    rcases (Ledger.hold_held_iff _).mp ha with ⟨-, hr⟩ | ⟨hne, ha⟩
    · exact absurd hr nofun
    · refine (L.release_live_iff).mpr ⟨?_, hL.live ha⟩
      rintro rfl
      exact hne (hL.unique ha hh)
  once := hL.once_release (hL.live hh)
  kept {q} hlive hgiven := by
    obtain ⟨hne, hlive⟩ := (L.release_live_iff).mp hlive
    obtain ⟨a, ha⟩ := hL.kept hlive hgiven
    have hah : a ≠ h := by
      rintro rfl
      exact hne (Option.some.inj (ha.symm.trans hh))
    exact ⟨a, (Ledger.hold_held_iff _).mpr (.inr ⟨hah, ha⟩)⟩
  given {q} hq := by
    obtain ⟨hlive, hno⟩ := hL.given hq
    refine ⟨(L.release_live_iff).mpr ⟨?_, hlive⟩, fun a ha => ?_⟩
    · rintro rfl
      exact hno h hh
    · rcases (Ledger.hold_held_iff _).mp ha with ⟨-, hr⟩ | ⟨-, ha⟩
      · exact absurd hr nofun
      · exact hno a ha

theorem give_hold (hL : Owned L) (hh : L.held h = some r) :
    Owned ((L.give r).hold h none) where
  unique {q a b} ha hb := by
    rcases (Ledger.hold_held_iff _).mp ha with ⟨-, hr⟩ | ⟨-, ha⟩
    · exact absurd hr nofun
    rcases (Ledger.hold_held_iff _).mp hb with ⟨-, hr⟩ | ⟨-, hb⟩
    · exact absurd hr nofun
    exact hL.unique ha hb
  live {q a} ha := by
    rcases (Ledger.hold_held_iff _).mp ha with ⟨-, hr⟩ | ⟨-, ha⟩
    · exact absurd hr nofun
    · exact hL.live ha
  once := hL.once
  kept {q} hlive hgiven := by
    obtain ⟨a, ha⟩ := hL.kept hlive (fun hq => hgiven (List.mem_cons_of_mem _ hq))
    have hah : a ≠ h := by
      rintro rfl
      have hqr : q = r := Option.some.inj (ha.symm.trans hh)
      exact hgiven (hqr ▸ List.mem_cons_self)
    exact ⟨a, (Ledger.hold_held_iff _).mpr (.inr ⟨hah, ha⟩)⟩
  given {q} hq := by
    rcases List.mem_cons.mp hq with rfl | hq
    · refine ⟨hL.live hh, fun a ha => ?_⟩
      rcases (Ledger.hold_held_iff _).mp ha with ⟨-, hr⟩ | ⟨hne, ha⟩
      · exact absurd hr nofun
      · exact hne (hL.unique ha hh)
    · obtain ⟨hlive, hno⟩ := hL.given hq
      refine ⟨hlive, fun a ha => ?_⟩
      rcases (Ledger.hold_held_iff _).mp ha with ⟨-, hr⟩ | ⟨-, ha⟩
      · exact absurd hr nofun
      · exact hno a ha

theorem not_owned_hold_none (hL : Owned L) (hh : L.held h = some r) :
    ¬ Owned (L.hold h none) := by
  refine hL.not_of_lost hh rfl rfl (by simp [Ledger.hold]) fun a hah ha => ?_
  simpa [Ledger.hold, hah] using ha

/-- The resource of `h` goes over to `k`, which holds none. -/
theorem move (hL : Owned L) (hkh : k ≠ h) (hfree : L.held k = none) :
    Owned ((L.hold k (L.held h)).hold h none) := by
  have hiff : ∀ {a q}, ((L.hold k (L.held h)).hold h none).held a = some q ↔
      a = k ∧ L.held h = some q ∨ a ≠ k ∧ a ≠ h ∧ L.held a = some q := by
    intro a q
    rw [Ledger.hold_held_iff, Ledger.hold_held_iff]
    by_cases hak : a = k
    · subst hak
      simp [hkh]
    · simp [hak]
  constructor
  · intro q a b ha hb
    rcases hiff.mp ha with ⟨hak, ha'⟩ | ⟨-, hah, ha'⟩ <;>
      rcases hiff.mp hb with ⟨hbk, hb'⟩ | ⟨-, hbh, hb'⟩
    · exact hak.trans hbk.symm
    · exact absurd (hL.unique hb' ha') hbh
    · exact absurd (hL.unique ha' hb') hah
    · exact hL.unique ha' hb'
  · intro q a ha
    rcases hiff.mp ha with ⟨-, ha⟩ | ⟨-, -, ha⟩
    · exact hL.live ha
    · exact hL.live ha
  · exact hL.once
  · intro q hlive hgiven
    obtain ⟨a, ha⟩ := hL.kept hlive hgiven
    by_cases hah : a = h
    · exact ⟨k, hiff.mpr (.inl ⟨rfl, hah ▸ ha⟩)⟩
    · have hak : a ≠ k := by
        rintro rfl
        exact absurd (hfree.symm.trans ha) nofun
      exact ⟨a, hiff.mpr (.inr ⟨hak, hah, ha⟩)⟩
  · intro q hq
    obtain ⟨hlive, hno⟩ := hL.given hq
    refine ⟨hlive, fun a ha => ?_⟩
    rcases hiff.mp ha with ⟨-, ha⟩ | ⟨-, -, ha⟩
    · exact hno h ha
    · exact hno a ha

/-- A move into `k` loses what `k` held. -/
theorem not_owned_move (hL : Owned L) (hkh : k ≠ h) (hk : L.held k = some r) :
    ¬ Owned ((L.hold k (L.held h)).hold h none) := by
  refine hL.not_of_lost hk rfl rfl (fun hh => ?_) fun a hak ha => ?_
  · have hh' : L.held h = some r := by simpa [Ledger.hold, hkh] using hh
    exact hkh (hL.unique hk hh')
  · by_cases hah : a = h
    · simp [Ledger.hold, hah] at ha
    · simpa [Ledger.hold, hah, hak] using ha

end Owned

/-- The resources held, each by one holder. -/
structure Held {H R : Type*} (rs : List R) (held : H → Option R) : Prop where
  mem : ∀ {r}, r ∈ rs ↔ ∃ h, held h = some r
  unique : ∀ {r h k}, held h = some r → held k = some r → h = k
  nodup : rs.Nodup

namespace Held
variable {H R : Type*} {rs : List R} {held : H → Option R} {h : H} {r : R}

theorem empty : Held [] fun _ : H => (none : Option R) where
  mem := by simp
  unique := nofun
  nodup := List.nodup_nil

variable [DecidableEq H]

/-- `h` goes on holding what it held. -/
theorem keep {x : Option R} (hs : Held rs held) (hx : held h = x) :
    Held rs (Function.update held h x) := by
  rw [← hx, Function.update_eq_self]
  exact hs

theorem insert (hs : Held rs held) (hh : held h = none) (hr : r ∉ rs) :
    Held (r :: rs) (Function.update held h (some r)) where
  mem {q} := by
    rw [List.mem_cons, hs.mem]
    constructor
    · rintro (rfl | ⟨k, hk⟩)
      · exact ⟨h, Function.update_self _ _ _⟩
      · refine ⟨k, ?_⟩
        rw [Function.update_of_ne, hk]
        rintro rfl
        exact absurd (hh.symm.trans hk) nofun
    · rintro ⟨k, hk⟩
      rw [Function.update_apply] at hk
      split_ifs at hk with hkh
      · exact .inl (Option.some.inj hk).symm
      · exact .inr ⟨k, hk⟩
  unique {q a b} ha hb := by
    have hfresh : ∀ k, held k = some q → q ≠ r := by
      rintro k hk rfl
      exact hr (hs.mem.mpr ⟨k, hk⟩)
    rw [Function.update_apply] at ha hb
    split_ifs at ha hb with hah hbh hbh
    · exact hah.trans hbh.symm
    · exact absurd (Option.some.inj ha).symm (hfresh b hb)
    · exact absurd (Option.some.inj hb).symm (hfresh a ha)
    · exact hs.unique ha hb
  nodup := List.nodup_cons.mpr ⟨hr, hs.nodup⟩

theorem erase [DecidableEq R] (hs : Held rs held) (hh : held h = some r) :
    Held (rs.erase r) (Function.update held h none) where
  mem {q} := by
    rw [hs.nodup.mem_erase_iff, hs.mem]
    constructor
    · rintro ⟨hq, k, hk⟩
      refine ⟨k, ?_⟩
      rw [Function.update_of_ne, hk]
      rintro rfl
      exact hq (Option.some.inj (hk.symm.trans hh))
    · rintro ⟨k, hk⟩
      rw [Function.update_apply] at hk
      split_ifs at hk with hkh
      refine ⟨?_, k, hk⟩
      rintro rfl
      exact hkh (hs.unique hk hh)
  unique {q a b} ha hb := by
    rw [Function.update_apply] at ha hb
    split_ifs at ha hb
    exact hs.unique ha hb
  nodup := hs.nodup.erase r

end Held
end Ownership
