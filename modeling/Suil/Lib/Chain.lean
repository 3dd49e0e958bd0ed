import Mathlib.Data.List.Nodup
import Mathlib.Logic.Function.Basic

/-! Null-terminated singly linked lists: the items that a pointer and the `next`
fields spell, and the effect of a write to one `next` field. -/
namespace Linked

variable {α : Type*}

/-- The pointer `p` leads through `next` to the items of the list and then to null. -/
def Chain (next : α → Option α) : Option α → List α → Prop
  | p, [] => p = none
  | p, a :: l => p = some a ∧ Chain next (next a) l

variable {next next' : α → Option α} {p : Option α} {a b : α} {l l' : List α}

@[simp] theorem chain_nil : Chain next p [] ↔ p = none := Iff.rfl

@[simp] theorem chain_cons : Chain next p (a :: l) ↔ p = some a ∧ Chain next (next a) l := Iff.rfl

theorem Chain.congr (h : Chain next p l) (hn : ∀ a ∈ l, next' a = next a) : Chain next' p l := by
  induction l generalizing p with
  | nil => exact h
  | cons a l ih =>
    obtain ⟨hp, hl⟩ := h
    refine ⟨hp, ?_⟩
    rw [hn a List.mem_cons_self]
    exact ih hl fun b hb => hn b (List.mem_cons_of_mem a hb)

theorem chain_none : Chain next none l ↔ l = [] := by
  cases l <;> simp

theorem Chain.unique (h : Chain next p l) (h' : Chain next p l') : l = l' := by
  induction l generalizing p l' with
  | nil =>
    rw [chain_nil.mp h, chain_none] at h'
    exact h'.symm
  | cons a l ih =>
    obtain ⟨rfl, hl⟩ := h
    cases l' with
    | nil => cases h'
    | cons b l' =>
      obtain ⟨hab, hl'⟩ := h'
      cases hab
      rw [ih hl hl']

theorem Chain.exists_cons (h : Chain next (some a) l) : ∃ l', l = a :: l' ∧ Chain next (next a) l' := by
  cases l with
  | nil => cases h
  | cons b l' =>
    obtain ⟨hab, hl⟩ := h
    cases hab
    exact ⟨l', rfl, hl⟩

section Writes
variable [DecidableEq α] {q : Option α}

/-- A write to an item outside the list is not seen. -/
theorem Chain.update (h : Chain next p l) (ha : a ∉ l) : Chain (Function.update next a q) p l :=
  h.congr fun _ hb => Function.update_of_ne (ne_of_mem_of_not_mem hb ha) _ _

/-- An item whose `next` is set to the first item of a list is put in front of it. -/
theorem Chain.push (h : Chain next p l) (ha : a ∉ l) :
    Chain (Function.update next a p) (some a) (a :: l) :=
  ⟨rfl, by rw [Function.update_self]; exact h.update ha⟩

end Writes
end Linked
