import Mathlib.Data.List.DropRight

/-! What is left of a list without those of its elements that meet a test and stand at an end. -/
namespace Ends

variable {α : Type*} {p q : α → Bool} {l k : List α}

/-- The list without its longest prefix and its longest suffix of such elements. -/
def inner (p : α → Bool) (l : List α) : List α := (l.dropWhile p).rdropWhile p

theorem dropWhile_congr (h : ∀ a ∈ l, p a = q a) : l.dropWhile p = l.dropWhile q := by
  induction l with
  | nil => rfl
  | cons a l ih =>
    have ha : p a = q a := h a List.mem_cons_self
    have hl : l.dropWhile p = l.dropWhile q := ih fun b hb => h b (List.mem_cons_of_mem a hb)
    rw [List.dropWhile_cons, List.dropWhile_cons, ha, hl]

theorem takeWhile_congr (h : ∀ a ∈ l, p a = q a) : l.takeWhile p = l.takeWhile q := by
  induction l with
  | nil => rfl
  | cons a l ih =>
    have ha : p a = q a := h a List.mem_cons_self
    have hl : l.takeWhile p = l.takeWhile q := ih fun b hb => h b (List.mem_cons_of_mem a hb)
    rw [List.takeWhile_cons, List.takeWhile_cons, ha, hl]

theorem rdropWhile_congr (h : ∀ a ∈ l, p a = q a) : l.rdropWhile p = l.rdropWhile q := by
  unfold List.rdropWhile
  rw [dropWhile_congr]
  exact fun a ha => h a (List.mem_reverse.mp ha)

theorem inner_congr (h : ∀ a ∈ l, p a = q a) : inner p l = inner q l := by
  unfold inner
  rw [dropWhile_congr h]
  apply rdropWhile_congr
  exact fun a ha => h a ((List.dropWhile_sublist q).mem ha)

theorem inner_sublist (p : α → Bool) (l : List α) : (inner p l).Sublist l :=
  (List.rdropWhile_prefix p _).sublist.trans (List.dropWhile_sublist p)

theorem filter_dropWhile (p : α → Bool) (l : List α) :
    (l.dropWhile p).filter (fun a => !p a) = l.filter fun a => !p a := by
  induction l with
  | nil => rfl
  | cons a l ih =>
    cases ha : p a with
    | true => rw [List.dropWhile_cons, ha, if_pos rfl, ih, List.filter_cons, ha]; rfl
    | false => rw [List.dropWhile_cons, ha, if_neg Bool.false_ne_true]

theorem filter_rdropWhile (p : α → Bool) (l : List α) :
    (l.rdropWhile p).filter (fun a => !p a) = l.filter fun a => !p a := by
  unfold List.rdropWhile
  rw [List.filter_reverse, filter_dropWhile, List.filter_reverse, List.reverse_reverse]

/-- None of the others is lost. -/
theorem filter_inner (p : α → Bool) (l : List α) :
    (inner p l).filter (fun a => !p a) = l.filter fun a => !p a := by
  rw [inner, filter_rdropWhile, filter_dropWhile]

theorem rdropWhile_append (h : ∀ a ∈ k, p a) : (l ++ k).rdropWhile p = l.rdropWhile p := by
  unfold List.rdropWhile
  rw [List.reverse_append, List.dropWhile_append_of_pos]
  exact fun a ha => h a (List.mem_reverse.mp ha)

theorem inner_append (h : ∀ a ∈ k, p a) : inner p (l ++ k) = inner p l := by
  unfold inner
  rw [List.dropWhile_append]
  split_ifs with hl
  · have hnil : l.dropWhile p = [] := List.isEmpty_iff.mp hl
    have hk : k.dropWhile p = [] := List.dropWhile_eq_nil_iff.mpr h
    rw [hnil, hk]
  · exact rdropWhile_append h

theorem dropWhile_eq_self (h : ∀ a, l.head? = some a → p a = false) : l.dropWhile p = l := by
  cases l with
  | nil => rfl
  | cons a l => rw [List.dropWhile_cons, h a rfl, if_neg Bool.false_ne_true]

theorem inner_eq_self (h : ∀ a ∈ l, p a = false) : inner p l = l := by
  have hdrop : l.dropWhile p = l := dropWhile_eq_self fun a ha => h a (List.mem_of_head? ha)
  rw [inner, hdrop, List.rdropWhile_eq_self_iff]
  intro hl
  rw [h _ (List.getLast_mem hl)]
  exact Bool.false_ne_true

theorem head_dropWhile {a : α} (h : (l.dropWhile p).head? = some a) : p a = false := by
  induction l with
  | nil => cases h
  | cons b l ih =>
    rw [List.dropWhile_cons] at h
    split_ifs at h with hb
    · exact ih h
    · obtain rfl := Option.some.inj h
      exact Bool.not_eq_true _ ▸ hb

theorem inner_inner (p : α → Bool) (l : List α) : inner p (inner p l) = inner p l := by
  have hdrop : (inner p l).dropWhile p = inner p l := by
    apply dropWhile_eq_self
    intro a ha
    obtain ⟨rest, hrest⟩ := List.rdropWhile_prefix p (l.dropWhile p)
    apply head_dropWhile (l := l)
    rw [← hrest, List.head?_append_of_ne_nil]
    · exact ha
    · intro hnil
      rw [inner, hnil] at ha
      cases ha
  rw [inner, hdrop, inner, List.rdropWhile_idempotent]

end Ends
