import Mathlib.Data.List.Basic

/-! A list of entries under keys that are compared by an equivalence. An entry is put only where no
other one is found. -/
namespace FirstWins

structure Same (κ : Type*) where
  test : κ → κ → Bool
  refl : ∀ k, test k k
  symm : ∀ {j k}, test j k → test k j
  trans : ∀ {i j k}, test i j → test j k → test i k

variable {κ ν : Type*} (E : Same κ) {ps gs : List (κ × ν)} {j k : κ} {v : ν}

def find (ps : List (κ × ν)) (k : κ) : Option ν := (ps.find? fun p => E.test p.1 k).map Prod.snd

def put (ps : List (κ × ν)) (k : κ) (v : ν) : List (κ × ν) :=
  if (find E ps k).isSome then ps else ps ++ [(k, v)]

theorem find_append (ps gs : List (κ × ν)) (k : κ) :
    find E (ps ++ gs) k = (find E ps k).or (find E gs k) := by
  unfold find
  rw [List.find?_append]
  cases ps.find? fun p => E.test p.1 k with
  | none => rfl
  | some p => rfl

theorem find_singleton (j k : κ) (v : ν) :
    find E [(j, v)] k = if E.test j k then some v else none := by
  unfold find
  rw [List.find?_singleton]
  split_ifs
  · rfl
  · rfl

theorem find_congr (h : E.test j k) : find E ps j = find E ps k := by
  have htest : (fun p : κ × ν => E.test p.1 j) = fun p => E.test p.1 k := by
    funext p
    rw [Bool.eq_iff_iff]
    exact ⟨fun hp => E.trans hp h, fun hp => E.trans hp (E.symm h)⟩
  unfold find
  rw [htest]

/-- What was there stays, and what is put is found where nothing was. -/
theorem find_put (ps : List (κ × ν)) (j : κ) (v : ν) (k : κ) :
    find E (put E ps j v) k = (find E ps k).or (if E.test j k then some v else none) := by
  unfold put
  split_ifs with hfound hsame hsame
  · rw [find_congr E hsame] at hfound
    obtain ⟨w, hw⟩ := Option.isSome_iff_exists.mp hfound
    rw [hw]
    rfl
  · rw [Option.or_none]
  · rw [find_append, find_singleton, if_pos hsame]
  · rw [find_append, find_singleton, if_neg hsame]

/-- The entries `gs` put one after the other. -/
def puts (ps gs : List (κ × ν)) : List (κ × ν) := gs.foldl (fun ps g => put E ps g.1 g.2) ps

theorem find_puts (ps gs : List (κ × ν)) (k : κ) :
    find E (puts E ps gs) k = (find E ps k).or (find E gs k) := by
  unfold puts
  induction gs generalizing ps with
  | nil => exact (Option.or_none).symm
  | cons g gs ih =>
    have hcons : find E (g :: gs) k = (find E [g] k).or (find E gs k) := find_append E [g] gs k
    rw [List.foldl_cons, ih, find_put, hcons, ← find_singleton, Option.or_assoc]

theorem find_isSome : (find E ps k).isSome ↔ ∃ p ∈ ps, E.test p.1 k := by
  unfold find
  rw [Option.isSome_map, List.find?_isSome]

/-- No two entries have keys that are the same. -/
def Apart (ps : List (κ × ν)) : Prop := ps.Pairwise fun p q => ¬ E.test p.1 q.1

end FirstWins
