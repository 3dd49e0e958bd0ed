import Mathlib.Data.List.Nodup
import Mathlib.Order.Lattice

/-! Stable sorting by a key, as a relation: the keys ascend, and items with equal keys stand in
the order they had. `List.mergeSort` is the only list so related to a list. -/
namespace StableSort

variable {α κ : Type*} [LinearOrder κ]

/-- `l` is `m`, sorted by `key`. -/
structure SortOf (key : α → κ) (l m : List α) : Prop where
  sorted : l.Pairwise fun a b => key a ≤ key b
  stable : ∀ k, l.filter (fun a => key a = k) = m.filter fun a => key a = k

namespace SortOf
variable {key key' : α → κ} {l l₁ l₂ m : List α} {a b : α}

theorem nil (key : α → κ) : SortOf key [] [] := ⟨List.Pairwise.nil, fun _ => rfl⟩

theorem mem_iff (h : SortOf key l m) : a ∈ l ↔ a ∈ m := by
  have hmem : a ∈ l.filter (fun b => key b = key a) ↔ a ∈ m.filter fun b => key b = key a := by
    rw [h.stable]
  simpa using hmem

theorem congr (h : SortOf key l m) (hkey : ∀ a ∈ m, key a = key' a) : SortOf key' l m where
  sorted := h.sorted.imp_of_mem fun ha hb hle => by
    rwa [← hkey _ (h.mem_iff.mp ha), ← hkey _ (h.mem_iff.mp hb)]
  stable k := by
    have hl : ∀ a ∈ l, decide (key' a = k) = decide (key a = k) := fun a ha => by
      rw [hkey a (h.mem_iff.mp ha)]
    have hm : ∀ a ∈ m, decide (key' a = k) = decide (key a = k) := fun a ha => by rw [hkey a ha]
    rw [List.filter_congr hl, List.filter_congr hm, h.stable]

/-- Items are removed. -/
theorem filter (h : SortOf key l m) (p : α → Bool) : SortOf key (l.filter p) (m.filter p) where
  sorted := h.sorted.sublist List.filter_sublist
  stable k := by rw [List.filter_comm, h.stable, List.filter_comm]

/-- A last item goes in front of the first one with a greater key. -/
theorem insert (h : SortOf key (l₁ ++ l₂) m) (hle : ∀ b ∈ l₁, key b ≤ key a)
    (hlt : ∀ b ∈ l₂, key a < key b) : SortOf key (l₁ ++ a :: l₂) (m ++ [a]) where
  sorted := by
    obtain ⟨h₁, h₂, hcross⟩ := List.pairwise_append.mp h.sorted
    refine List.pairwise_append.mpr ⟨h₁, List.pairwise_cons.mpr ⟨fun b hb => (hlt b hb).le, h₂⟩, ?_⟩
    intro b hb c hc
    rcases List.mem_cons.mp hc with rfl | hc
    · exact hle b hb
    · exact hcross b hb c hc
  stable k := by
    have hall := h.stable k
    rw [List.filter_append] at hall
    rw [List.filter_append, List.filter_append, ← hall, List.append_assoc]
    by_cases hk : key a = k
    · have hnone : l₂.filter (fun b => key b = k) = [] := by
        apply List.filter_eq_nil_iff.mpr
        intro b hb
        have hne : key b ≠ k := (hk ▸ hlt b hb).ne'
        simpa using hne
      simp [hnone, hk]
    · simp [hk]

/-- The first item has the least key, and came first among those that have it. -/
theorem head (h : SortOf key (a :: l) m) : (∀ b ∈ m, key a ≤ key b) ∧
    (m.filter fun b => key b = key a).head? = some a := by
  constructor
  · intro b hb
    rcases List.mem_cons.mp (h.mem_iff.mpr hb) with rfl | hb
    · exact le_rfl
    · exact (List.pairwise_cons.mp h.sorted).1 b hb
  · rw [← h.stable]
    simp

theorem unique {l' : List α} (h : SortOf key l m) (h' : SortOf key l' m) : l = l' := by
  induction l generalizing l' m with
  | nil =>
    cases l' with
    | nil => rfl
    | cons b l' => exact absurd (h.mem_iff.mpr (h'.mem_iff.mp List.mem_cons_self)) List.not_mem_nil
  | cons a l ih =>
    cases l' with
    | nil => exact absurd (h'.mem_iff.mpr (h.mem_iff.mp List.mem_cons_self)) List.not_mem_nil
    | cons b l' =>
      have ha := h.head
      have hb := h'.head
      have hkey : key a = key b := by
        apply le_antisymm
        · exact ha.1 b (h'.mem_iff.mp List.mem_cons_self)
        · exact hb.1 a (h.mem_iff.mp List.mem_cons_self)
      have hab : a = b := by
        have heq := ha.2
        rw [hkey, hb.2] at heq
        exact (Option.some.inj heq).symm
      rw [← hab] at h' ⊢
      have htail : SortOf key l l' := by
        refine ⟨(List.pairwise_cons.mp h.sorted).2, fun k => ?_⟩
        have hfilter := (h.stable k).trans (h'.stable k).symm
        rw [List.filter_cons, List.filter_cons] at hfilter
        split_ifs at hfilter
        · exact (List.cons.inj hfilter).2
        · exact hfilter
      rw [ih htail ⟨(List.pairwise_cons.mp h'.sorted).2, fun _ => rfl⟩]

theorem mergeSort (key : α → κ) (m : List α) :
    SortOf key (m.mergeSort fun a b => key a ≤ key b) m := by
  have htrans : ∀ a b c : α, decide (key a ≤ key b) = true → decide (key b ≤ key c) = true →
      decide (key a ≤ key c) = true := by
    intro a b c hab hbc
    exact decide_eq_true ((of_decide_eq_true hab).trans (of_decide_eq_true hbc))
  have htotal : ∀ a b : α, (decide (key a ≤ key b) || decide (key b ≤ key a)) = true := by
    intro a b
    simpa using le_total (key a) (key b)
  constructor
  · exact (List.pairwise_mergeSort htrans htotal m).imp fun h => of_decide_eq_true h
  · intro k
    have hperm := (List.mergeSort_perm m fun a b => decide (key a ≤ key b)).filter
      fun a => decide (key a = k)
    have hties : (m.filter fun a => key a = k).Pairwise fun a b => decide (key a ≤ key b) = true := by
      apply List.pairwise_of_forall_mem_list
      intro a ha b hb
      have hkey : key a = key b := by simp_all
      exact decide_eq_true hkey.le
    have hsub := (List.sublist_mergeSort htrans htotal hties List.filter_sublist).filter
      fun a => decide (key a = k)
    rw [List.filter_filter] at hsub
    simp only [Bool.and_self] at hsub
    exact (hsub.eq_of_length hperm.length_eq.symm).symm

theorem eq_mergeSort (h : SortOf key l m) : l = m.mergeSort fun a b => key a ≤ key b :=
  h.unique (mergeSort key m)

end SortOf
end StableSort
