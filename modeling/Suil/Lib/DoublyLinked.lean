import Mathlib.Data.List.Nodup
import Mathlib.Logic.Function.Basic

/-! Doubly linked lists as pointers: the four kinds of pointer write and the
sequence of items that the pointers spell. Addresses are of any type. -/
namespace DoublyLinked

/-- A list header and the two pointers of every item, linked or not. -/
structure Links (α : Type*) where
  first : Option α
  last : Option α
  next : α → Option α
  prev : α → Option α

namespace Links
variable {α : Type*}

/-- No item is linked and every pointer is null. -/
def empty : Links α := ⟨none, none, fun _ => none, fun _ => none⟩

/-- The items of `l` are linked in this order, between `p` and `q`. -/
def Seg (L : Links α) : Option α → List α → Option α → Prop
  | _, [], _ => True
  | p, a :: l, q => L.prev a = p ∧ L.next a = l.head?.or q ∧ Seg L (some a) l q

/-- The header and the pointers spell exactly `l`. -/
structure Represents (L : Links α) (l : List α) : Prop where
  nodup : l.Nodup
  first : L.first = l.head?
  last : L.last = l.getLast?
  seg : L.Seg none l none

/-- The item `n` hops behind the first one. -/
def nth (L : Links α) : ℕ → Option α
  | 0 => L.first
  | n + 1 => (L.nth n).bind L.next

/-- The item is found by following `next` from `first`. -/
def Reaches (L : Links α) (a : α) : Prop := ∃ n, L.nth n = some a

variable {L M : Links α} {l l₁ l₂ : List α} {p q p' q' : Option α} {a b : α}

@[simp] theorem seg_nil : L.Seg p [] q := trivial

@[simp] theorem seg_cons :
    L.Seg p (a :: l) q ↔ L.prev a = p ∧ L.next a = l.head?.or q ∧ L.Seg (some a) l q := Iff.rfl

theorem getLast?_cons_or : (a :: l).getLast?.or p = l.getLast?.or (some a) := by
  rw [List.getLast?_cons]
  cases l.getLast? <;> rfl

theorem seg_append : L.Seg p (l₁ ++ l₂) q ↔
    L.Seg p l₁ (l₂.head?.or q) ∧ L.Seg (l₁.getLast?.or p) l₂ q := by
  induction l₁ generalizing p with
  | nil => simp
  | cons a l₁ ih =>
    simp only [List.cons_append, seg_cons, ih, getLast?_cons_or, List.head?_append,
      Option.or_assoc, and_assoc]

theorem Seg.congr (h : L.Seg p l q) (hn : ∀ a ∈ l, M.next a = L.next a)
    (hp : ∀ a ∈ l, M.prev a = L.prev a) : M.Seg p l q := by
  induction l generalizing p with
  | nil => trivial
  | cons a l ih =>
    obtain ⟨h1, h2, h3⟩ := h
    refine ⟨(hp a List.mem_cons_self).trans h1, (hn a List.mem_cons_self).trans h2, ih h3 ?_ ?_⟩
    · exact fun b hb => hn b (List.mem_cons_of_mem a hb)
    · exact fun b hb => hp b (List.mem_cons_of_mem a hb)

theorem empty_represents : (empty : Links α).Represents [] := ⟨List.nodup_nil, rfl, rfl, trivial⟩

theorem Represents.prev_eq (h : L.Represents (l₁ ++ a :: l₂)) : L.prev a = l₁.getLast? := by
  simpa using (seg_append.mp h.seg).2.1

theorem Represents.next_eq (h : L.Represents (l₁ ++ a :: l₂)) : L.next a = l₂.head? := by
  simpa using (seg_append.mp h.seg).2.2.1

/-- Between items of the list `next` and `prev` are inverse to each other. -/
theorem Represents.next_iff_prev (h : L.Represents l) (ha : a ∈ l) (hb : b ∈ l) :
    L.next a = some b ↔ L.prev b = some a := by
  constructor
  · intro hn
    obtain ⟨l₁, l₂, rfl⟩ := List.append_of_mem ha
    rw [h.next_eq] at hn
    obtain ⟨l₃, rfl⟩ := List.head?_eq_some_iff.mp hn
    rw [List.append_cons] at h
    rw [h.prev_eq, List.getLast?_concat]
  · intro hp
    obtain ⟨l₁, l₂, rfl⟩ := List.append_of_mem hb
    rw [h.prev_eq] at hp
    obtain ⟨l₃, rfl⟩ := List.getLast?_eq_some_iff.mp hp
    rw [List.append_assoc] at h
    exact h.next_eq

theorem Represents.nth_eq (h : L.Represents l) (n : ℕ) : L.nth n = l[n]? := by
  induction n with
  | zero => rw [nth, h.first, List.head?_eq_getElem?]
  | succ n ih =>
    rw [nth, ih]
    cases hn : l[n]? with
    | none =>
      have hlen := List.getElem?_eq_none_iff.mp hn
      exact (List.getElem?_eq_none_iff.mpr (by omega)).symm
    | some a =>
      obtain ⟨hlt, rfl⟩ := List.getElem?_eq_some_iff.mp hn
      have hsplit : l.take n ++ l[n] :: l.drop (n + 1) = l := by
        rw [List.getElem_cons_drop, List.take_append_drop]
      rw [← hsplit] at h
      rw [Option.bind_some, h.next_eq, List.head?_drop]

/-- Following `next` finds the items of the list and no others. -/
theorem Represents.reaches_iff (h : L.Represents l) : L.Reaches a ↔ a ∈ l := by
  simp only [Reaches, h.nth_eq, List.mem_iff_getElem?]

theorem not_reaches_of_first (h : L.first = none) : ¬ L.Reaches a := by
  rintro ⟨n, hn⟩
  have hnone : ∀ n, L.nth n = none := by
    intro n
    induction n with
    | zero => exact h
    | succ n ih => rw [nth, ih, Option.bind_none]
  cases (hnone n).symm.trans hn

def setFirst (L : Links α) (v : Option α) : Links α := { L with first := v }

def setLast (L : Links α) (v : Option α) : Links α := { L with last := v }

@[simp] theorem setFirst_first : (L.setFirst p).first = p := rfl
@[simp] theorem setFirst_last : (L.setFirst p).last = L.last := rfl
@[simp] theorem setFirst_next : (L.setFirst p).next = L.next := rfl
@[simp] theorem setFirst_prev : (L.setFirst p).prev = L.prev := rfl
@[simp] theorem setLast_first : (L.setLast p).first = L.first := rfl
@[simp] theorem setLast_last : (L.setLast p).last = p := rfl
@[simp] theorem setLast_next : (L.setLast p).next = L.next := rfl
@[simp] theorem setLast_prev : (L.setLast p).prev = L.prev := rfl

section Writes
variable [DecidableEq α]

def setNext (L : Links α) (a : α) (v : Option α) : Links α :=
  { L with next := Function.update L.next a v }

def setPrev (L : Links α) (a : α) (v : Option α) : Links α :=
  { L with prev := Function.update L.prev a v }

variable {v : Option α}

@[simp] theorem setNext_first : (L.setNext a v).first = L.first := rfl
@[simp] theorem setNext_last : (L.setNext a v).last = L.last := rfl
@[simp] theorem setNext_prev : (L.setNext a v).prev = L.prev := rfl
@[simp] theorem setPrev_first : (L.setPrev a v).first = L.first := rfl
@[simp] theorem setPrev_last : (L.setPrev a v).last = L.last := rfl
@[simp] theorem setPrev_next : (L.setPrev a v).next = L.next := rfl

@[simp] theorem setNext_next :
    (L.setNext a v).next b = if b = a then v else L.next b := by
  simp [setNext, Function.update_apply]

@[simp] theorem setPrev_prev :
    (L.setPrev a v).prev b = if b = a then v else L.prev b := by
  simp [setPrev, Function.update_apply]

/-- The pointers of an item that is not linked do not matter. -/
theorem Represents.unlink (h : L.Represents l) (ha : a ∉ l) :
    ((L.setNext a p).setPrev a q).Represents l where
  nodup := h.nodup
  first := h.first
  last := h.last
  seg := h.seg.congr (fun b hb => by simp [ne_of_mem_of_not_mem hb ha])
    fun b hb => by simp [ne_of_mem_of_not_mem hb ha]

/-- Only the last item of a segment points to what follows the segment. -/
theorem Seg.redirect_end (h : L.Seg p l q) (hl : l.Nodup) (hp : ∀ a ∈ l, M.prev a = L.prev a)
    (hn : ∀ a ∈ l, M.next a = if some a = l.getLast? then q' else L.next a) : M.Seg p l q' := by
  induction l generalizing p with
  | nil => trivial
  | cons a l ih =>
    obtain ⟨h1, h2, h3⟩ := h
    obtain ⟨ha, hl⟩ := List.nodup_cons.mp hl
    have hna := hn a List.mem_cons_self
    refine ⟨(hp a List.mem_cons_self).trans h1, ?_, ih h3 hl ?_ ?_⟩
    · cases l with
      | nil => simpa using hna
      | cons b l =>
        have hlast : some a ≠ (a :: b :: l).getLast? := by
          rw [List.getLast?_cons_cons]
          exact fun hc => ha (List.mem_of_getLast? hc.symm)
        rw [hna, if_neg hlast, h2]
        rfl
    · exact fun b hb => hp b (List.mem_cons_of_mem a hb)
    · intro b hb
      obtain ⟨c, l, rfl⟩ := List.exists_cons_of_ne_nil (List.ne_nil_of_mem hb)
      rw [hn b (List.mem_cons_of_mem a hb), List.getLast?_cons_cons]

/-- Only the first item of a segment points to what precedes the segment. -/
theorem Seg.redirect_start (h : L.Seg p l q) (hl : l.Nodup) (hn : ∀ a ∈ l, M.next a = L.next a)
    (hp : ∀ a ∈ l, M.prev a = if some a = l.head? then p' else L.prev a) : M.Seg p' l q := by
  cases l with
  | nil => trivial
  | cons a l =>
    obtain ⟨-, h2, h3⟩ := h
    obtain ⟨ha, -⟩ := List.nodup_cons.mp hl
    refine ⟨by simpa using hp a List.mem_cons_self, (hn a List.mem_cons_self).trans h2, h3.congr ?_ ?_⟩
    · exact fun b hb => hn b (List.mem_cons_of_mem a hb)
    · intro b hb
      have hab : b ≠ a := fun h => ha (h ▸ hb)
      simpa [hab] using hp b (List.mem_cons_of_mem a hb)

end Writes
end Links
end DoublyLinked
