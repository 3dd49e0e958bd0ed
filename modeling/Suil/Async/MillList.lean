import Suil.Lib.DoublyLinked

/-! `mill_list_insert` and `mill_list_erase` as the sequence of pointer writes
they make, and what they do to the list that the pointers spell. -/
namespace Suil.Async
open DoublyLinked Links

variable {α : Type*} [DecidableEq α] {self : Links α} {item : α} {it : Option α} {l l₁ l₂ : List α}

def millListInsert (self : Links α) (item : α) (it : Option α) : Links α :=
  let self := self.setPrev item (match it with
    | some i => self.prev i
    | none => self.last)
  let self := self.setNext item it
  let self := match self.prev item with
    | some p => self.setNext p (some item)
    | none => self
  let self := match self.next item with
    | some n => self.setPrev n (some item)
    | none => self
  let self := if self.first = none ∨ self.first = it then self.setFirst (some item) else self
  if it = none then self.setLast (some item) else self

/-- The item after the erased one is returned with the list. -/
def millListErase (self : Links α) (item : α) : Links α × Option α :=
  let self := match self.prev item with
    | some p => self.setNext p (self.next item)
    | none => self.setFirst (self.next item)
  let self := match self.next item with
    | some n => self.setPrev n (self.prev item)
    | none => self.setLast (self.prev item)
  let next := self.next item
  ((self.setPrev item none).setNext item none, next)

/-- The item that ends up in front of one inserted before `it`. -/
def insertPrev (self : Links α) : Option α → Option α
  | some i => self.prev i
  | none => self.last

theorem millListInsert_fields (self : Links α) (item : α) (it : Option α)
    (hpv : insertPrev self it ≠ some item) :
    let t := millListInsert self item it
    t.first = (if self.first = none ∨ self.first = it then some item else self.first) ∧
    t.last = (if it = none then some item else self.last) ∧
    (∀ a, t.next a = if some a = insertPrev self it then some item
        else if a = item then it else self.next a) ∧
    ∀ a, t.prev a = if some a = it then some item
        else if a = item then insertPrev self it else self.prev a := by
  cases it with
  | none =>
    cases hp : self.last with
    | none =>
      by_cases hf : self.first = none <;> simp [millListInsert, insertPrev, hp, hf]
    | some p =>
      have hpi : item ≠ p := by rintro rfl; simp [insertPrev, hp] at hpv
      by_cases hf : self.first = none <;> simp [millListInsert, insertPrev, hp, hf, hpi]
  | some i =>
    cases hp : self.prev i with
    | none =>
      by_cases hf : self.first = none ∨ self.first = some i <;>
        simp [millListInsert, insertPrev, hp, hf]
    | some p =>
      have hpi : item ≠ p := by rintro rfl; simp [insertPrev, hp] at hpv
      by_cases hf : self.first = none ∨ self.first = some i <;>
        simp [millListInsert, insertPrev, hp, hf, hpi]

theorem millListErase_fields (hp : self.prev item ≠ some item) :
    let t := (millListErase self item).1
    t.first = (if self.prev item = none then self.next item else self.first) ∧
    t.last = (if self.next item = none then self.prev item else self.last) ∧
    (∀ a, t.next a = if a = item then none
        else if some a = self.prev item then self.next item else self.next a) ∧
    ∀ a, t.prev a = if a = item then none
        else if some a = self.next item then self.prev item else self.prev a := by
  cases hn' : self.next item with
  | none =>
    cases hp' : self.prev item with
    | none => simp [millListErase, hn', hp']
    | some p =>
      have hpi : item ≠ p := by rintro rfl; exact hp hp'
      simp [millListErase, hn', hp', hpi]
  | some n =>
    cases hp' : self.prev item with
    | none => simp [millListErase, hn', hp']
    | some p =>
      have hpi : item ≠ p := by rintro rfl; exact hp hp'
      simp [millListErase, hn', hp', hpi]

omit [DecidableEq α] in
theorem insertPrev_represents (h : self.Represents (l₁ ++ l₂)) :
    insertPrev self l₂.head? = l₁.getLast? := by
  cases l₂ with
  | nil => simpa [insertPrev] using h.last
  | cons b l₂ => exact h.prev_eq

/-- Inserting an unlinked item before `it` puts it there in the spelled list. -/
theorem millListInsert_represents (h : self.Represents (l₁ ++ l₂)) (hi : item ∉ l₁ ++ l₂) :
    (millListInsert self item l₂.head?).Represents (l₁ ++ item :: l₂) := by
  obtain ⟨hi₁, hi₂⟩ : item ∉ l₁ ∧ item ∉ l₂ := by simpa using hi
  obtain ⟨hn₁, hn₂, hd⟩ := List.nodup_append.mp h.nodup
  obtain ⟨hs₁, hs₂⟩ := seg_append.mp h.seg
  have hpv := insertPrev_represents h
  have hit : some item ≠ l₂.head? := fun hc => hi₂ (List.mem_of_head? hc.symm)
  have hne : some item ≠ l₁.getLast? := fun hc => hi₁ (List.mem_of_getLast? hc.symm)
  obtain ⟨hf, hl, hnext, hprev⟩ :=
    millListInsert_fields self item l₂.head? (hpv ▸ hne.symm)
  simp only [hpv] at hnext hprev
  refine ⟨List.nodup_middle.mpr (List.nodup_cons.mpr ⟨hi, h.nodup⟩), ?_, ?_, ?_⟩
  · cases l₁ with
    | nil => simp [hf, h.first]
    | cons a l₁ =>
      have hne : some a ≠ l₂.head? :=
        fun hc => hd a List.mem_cons_self a (List.mem_of_head? hc.symm) rfl
      simp [hf, h.first, hne]
  · rw [hl, h.last]
    cases l₂ <;> simp [List.getLast?_append]
  · refine seg_append.mpr ⟨hs₁.redirect_end hn₁ ?_ ?_, ?_, ?_, hs₂.redirect_start hn₂ ?_ ?_⟩
    · intro a ha
      have hnh : some a ≠ l₂.head? := fun hc => hd a ha a (List.mem_of_head? hc.symm) rfl
      rw [hprev, if_neg hnh, if_neg (ne_of_mem_of_not_mem ha hi₁)]
    · intro a ha
      rw [hnext, if_neg (ne_of_mem_of_not_mem ha hi₁)]
      rfl
    · rw [hprev, if_neg hit, if_pos rfl, Option.or_none]
    · rw [hnext, if_neg hne, if_pos rfl, Option.or_none]
    · intro a ha
      have hnl : some a ≠ l₁.getLast? := fun hc => hd a (List.mem_of_getLast? hc.symm) a ha rfl
      rw [hnext, if_neg hnl, if_neg (ne_of_mem_of_not_mem ha hi₂)]
    · intro a ha
      rw [hprev, if_neg (ne_of_mem_of_not_mem ha hi₂)]

/-- Erasing a linked item takes it out of the spelled list. -/
theorem millListErase_represents (h : self.Represents (l₁ ++ item :: l₂)) :
    (millListErase self item).1.Represents (l₁ ++ l₂) := by
  obtain ⟨hi, hn⟩ := List.nodup_cons.mp (List.nodup_middle.mp h.nodup)
  obtain ⟨hi₁, hi₂⟩ : item ∉ l₁ ∧ item ∉ l₂ := by simpa using hi
  obtain ⟨hn₁, hn₂, hd⟩ := List.nodup_append.mp hn
  obtain ⟨hs₁, -, -, hs₂⟩ := seg_append.mp h.seg
  have hp : self.prev item ≠ some item := by
    rw [h.prev_eq]
    exact fun hc => hi₁ (List.mem_of_getLast? hc)
  obtain ⟨hf, hl, hnext, hprev⟩ := millListErase_fields hp
  simp only [h.next_eq, h.prev_eq] at hf hl hnext hprev
  refine ⟨hn, ?_, ?_, seg_append.mpr ⟨hs₁.redirect_end hn₁ ?_ ?_, hs₂.redirect_start hn₂ ?_ ?_⟩⟩
  · rw [hf, h.first]
    cases l₁ <;> simp [List.getLast?_eq_none_iff]
  · rw [hl, h.last]
    cases l₂ <;> simp [List.getLast?_append]
  · intro a ha
    have hai : a ≠ item := ne_of_mem_of_not_mem ha hi₁
    have hnh : some a ≠ l₂.head? := fun hc => hd a ha a (List.mem_of_head? hc.symm) rfl
    rw [hprev, if_neg hai, if_neg hnh]
  · intro a ha
    rw [hnext, if_neg (ne_of_mem_of_not_mem ha hi₁), Option.or_none]
  · intro a ha
    have hai : a ≠ item := ne_of_mem_of_not_mem ha hi₂
    have hnl : some a ≠ l₁.getLast? := fun hc => hd a (List.mem_of_getLast? hc.symm) a ha rfl
    rw [hnext, if_neg hai, if_neg hnl]
  · intro a ha
    rw [hprev, if_neg (ne_of_mem_of_not_mem ha hi₂), Option.or_none]

end Suil.Async
