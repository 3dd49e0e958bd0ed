import Mathlib.Data.Nat.Notation
import Mathlib.Data.List.Infix

/-! A sequence cut at the occurrences of a separator, from the left to the right and without
overlap. Nothing is left for a separator at the end. -/
namespace Cut

/-- The pieces of a sequence between the occurrences of `d`. -/
inductive Leftmost {α : Type*} (d : List α) : List α → List (List α) → Prop
  | done : Leftmost d [] []
  | last {s} : s ≠ [] → ¬ d <:+: s → Leftmost d s [s]
  | cut {p rest out} :
    (∀ p' rest', p ++ (d ++ rest) = p' ++ (d ++ rest') → p.length ≤ p'.length) →
    Leftmost d rest out → Leftmost d (p ++ (d ++ rest)) (p :: out)

variable {α : Type*} {d s p : List α} {out ps qs : List (List α)}

/-- The pieces with a separator behind each. -/
def terminated (d : List α) (ps : List (List α)) : List α := ps.flatMap (· ++ d)

theorem terminated_cons : terminated d (p :: ps) = p ++ (d ++ terminated d ps) := by
  rw [terminated, List.flatMap_cons, List.append_assoc, terminated]

theorem Leftmost.eq_nil (h : Leftmost d s []) : s = [] := by
  cases h with
  | done => rfl

/-- No piece has the separator in it. -/
theorem Leftmost.free (hd : d ≠ []) (h : Leftmost d s out) : ∀ p ∈ out, ¬ d <:+: p := by
  induction h with
  | done => exact nofun
  | last _ hfree =>
    intro p hp
    rw [List.mem_singleton.mp hp]
    exact hfree
  | @cut p rest out hfirst _ ih =>
    intro q hq
    rcases List.mem_cons.mp hq with rfl | hq
    · rintro ⟨a, b, rfl⟩
      have hle := hfirst a (b ++ (d ++ rest)) (by simp only [List.append_assoc])
      have hpos := List.length_pos_iff.mpr hd
      simp only [List.length_append] at hle
      omega
    · exact ih q hq

/-- The pieces with separators between them are the sequence, but for a separator at its end. -/
theorem Leftmost.joins (h : Leftmost d s out) :
    d.intercalate out = s ∨ d.intercalate out ++ d = s := by
  induction h with
  | done => exact .inl rfl
  | last _ _ => exact .inl List.intercalate_singleton
  | @cut p rest out _ hrest ih =>
    by_cases hout : out = []
    · subst hout
      rw [hrest.eq_nil, List.append_nil, List.intercalate_singleton]
      exact .inr rfl
    · rw [List.intercalate_cons_of_ne_nil hout]
      rcases ih with ih | ih
      · refine .inl ?_
        rw [ih, List.append_assoc]
      · refine .inr ?_
        rw [← ih]
        simp only [List.append_assoc]

/-- Behind any of the pieces and its separator, the next piece ends at the first separator. -/
theorem Leftmost.leftmost (h : Leftmost d s out) (hout : out = ps ++ qs) {p' rest' : List α}
    (hs : s = terminated d ps ++ (p' ++ (d ++ rest'))) (hd : d ≠ []) :
    ∃ p qs', qs = p :: qs' ∧ p.length ≤ p'.length := by
  induction h generalizing ps with
  | done =>
    have hnil := (List.append_eq_nil_iff.mp (List.append_eq_nil_iff.mp hs.symm).2).2
    exact absurd (List.append_eq_nil_iff.mp hnil).1 hd
  | @last s hne hfree =>
    refine absurd ⟨terminated d ps ++ p', rest', ?_⟩ hfree
    rw [hs]
    simp only [List.append_assoc]
  | @cut p rest out hfirst hrest ih =>
    cases ps with
    | nil =>
      have hlist : p :: out = qs := hout
      exact ⟨p, out, hlist.symm, hfirst p' rest' hs⟩
    | cons q ps =>
      obtain ⟨rfl, htail⟩ := List.cons.inj hout
      rw [terminated_cons, List.append_assoc, List.append_assoc] at hs
      exact ih htail (List.append_cancel_left (List.append_cancel_left hs))

end Cut
