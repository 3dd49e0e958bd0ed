import Mathlib.Data.List.Nodup
import Mathlib.Data.List.Perm.Subperm
import Mathlib.Data.List.SplitLengths
import Mathlib.Order.Lattice

/-! Going through a list by a key without sorting it: the lowest item first, and then again and
again the lowest of those above the last one. -/
namespace Selection

variable {α κ : Type*} [LinearOrder κ]

section Visit
variable (key : α → κ)

/-- The first of the lowest items. -/
def lowest : α → List α → α
  | r, [] => r
  | r, a :: l => lowest (if key a < key r then a else r) l

def start : List α → Option α
  | [] => none
  | a :: l => some (lowest key a l)

/-- The lowest item above the last one. -/
def skip (l : List α) (r : α) : Option α := start key (l.filter (key r < key ·))

/-- At most `n` items from one on. -/
def visits (l : List α) : ℕ → Option α → List α
  | 0, _ => []
  | _ + 1, none => []
  | n + 1, some r => r :: visits l n (skip key l r)

end Visit

variable {key : α → κ} {l : List α} {a r : α} {n : ℕ}

theorem lowest_mem (key : α → κ) (r : α) (l : List α) : lowest key r l ∈ r :: l := by
  induction l generalizing r with
  | nil => exact List.mem_cons_self
  | cons a l ih =>
    rw [lowest]
    by_cases hlt : key a < key r
    · rw [if_pos hlt]
      exact List.mem_cons_of_mem r (ih a)
    · rw [if_neg hlt]
      cases List.mem_cons.mp (ih r) with
      | inl heq => rw [heq]; exact List.mem_cons_self
      | inr hmem => exact List.mem_cons_of_mem r (List.mem_cons_of_mem a hmem)

theorem lowest_le (key : α → κ) (r : α) (l : List α) : ∀ a ∈ r :: l, key (lowest key r l) ≤ key a := by
  induction l generalizing r with
  | nil => exact fun a ha => (List.mem_singleton.mp ha) ▸ le_refl _
  | cons a l ih =>
    rw [lowest]
    by_cases hlt : key a < key r
    · rw [if_pos hlt]
      have hle := ih a a List.mem_cons_self
      exact List.forall_mem_cons.mpr ⟨le_trans hle (le_of_lt hlt), ih a⟩
    · rw [if_neg hlt]
      have hle := ih r r List.mem_cons_self
      exact List.forall_mem_cons.mpr ⟨hle, List.forall_mem_cons.mpr
        ⟨le_trans hle (not_lt.mp hlt), fun b hb => ih r b (List.mem_cons_of_mem r hb)⟩⟩

theorem start_eq_some (h : start key l = some r) : r ∈ l ∧ ∀ a ∈ l, key r ≤ key a := by
  cases l with
  | nil => cases h
  | cons a l =>
    obtain rfl := Option.some.inj h
    exact ⟨lowest_mem key a l, lowest_le key a l⟩

theorem start_eq_none (h : start key l = none) : l = [] := by
  cases l with
  | nil => rfl
  | cons a l => cases h

variable (key) in
/-- From where no item below is left out, all are visited, from the lowest to the highest. -/
theorem visits_filter {p : α → Bool} (hup : ∀ a b, p a → key a < key b → p b)
    (hn : (l.filter p).length ≤ n) :
    (visits key l n (start key (l.filter p))).Pairwise (fun a b => key a < key b) ∧
    (∀ a ∈ visits key l n (start key (l.filter p)), a ∈ l.filter p) ∧
    ∀ a ∈ l.filter p, ∃ b ∈ visits key l n (start key (l.filter p)), key b = key a := by
  induction n generalizing p with
  | zero =>
    have hnil : l.filter p = [] := List.eq_nil_of_length_eq_zero (Nat.le_zero.mp hn)
    rw [hnil]
    exact ⟨List.Pairwise.nil, fun a ha => ha, fun a ha => absurd ha List.not_mem_nil⟩
  | succ n ih =>
    cases hstart : start key (l.filter p) with
    | none =>
      rw [start_eq_none hstart]
      exact ⟨List.Pairwise.nil, fun a ha => ha, fun a ha => absurd ha List.not_mem_nil⟩
    | some r =>
      obtain ⟨hr, hleast⟩ := start_eq_some hstart
      have hpr : p r = true := (List.mem_filter.mp hr).2
      have hsub : l.filter (key r < key ·) = (l.filter p).filter (key r < key ·) := by
        rw [List.filter_filter]
        refine List.filter_congr fun a _ => ?_
        by_cases hlt : key r < key a
        · simp [hlt, hup r a hpr hlt]
        · simp [hlt]
      have hshort : (l.filter (key r < key ·)).length ≤ n := by
        have hlt : ((l.filter p).filter (key r < key ·)).length < (l.filter p).length :=
          List.length_filter_lt_length_iff_exists.mpr ⟨r, hr, by simp⟩
        rw [hsub]
        omega
      obtain ⟨hsorted, hmem, hall⟩ := ih (p := fun a => decide (key r < key a))
        (fun a b ha hab => by simpa using lt_trans (of_decide_eq_true ha) hab) hshort
      have habove : ∀ a ∈ visits key l n (skip key l r), key r < key a := fun a ha => by
        simpa using (List.mem_filter.mp (hmem a ha)).2
      refine ⟨List.pairwise_cons.mpr ⟨habove, hsorted⟩, List.forall_mem_cons.mpr ⟨hr, fun a ha => ?_⟩,
        fun a ha => ?_⟩
      · have hin := hmem a ha
        rw [hsub] at hin
        exact (List.mem_filter.mp hin).1
      · cases lt_or_eq_of_le (hleast a ha) with
        | inl hlt =>
          have hin : a ∈ l.filter (key r < key ·) :=
            List.mem_filter.mpr ⟨(List.mem_filter.mp ha).1, by simpa using hlt⟩
          obtain ⟨b, hb, heq⟩ := hall a hin
          exact ⟨b, List.mem_cons_of_mem r hb, heq⟩
        | inr heq => exact ⟨r, List.mem_cons_self, heq⟩

/-- Where no two items have one key, each is visited once, and in the order of the keys. -/
theorem visits_perm (hl : l.Nodup) (hkey : ∀ a ∈ l, ∀ b ∈ l, key a = key b → a = b)
    (hn : l.length ≤ n) : (visits key l n (start key l)).Perm l ∧
      (visits key l n (start key l)).Pairwise (fun a b => key a < key b) := by
  have hfilter : l.filter (fun _ => true) = l := List.filter_true l
  obtain ⟨hsorted, hmem, hall⟩ := visits_filter key (l := l) (p := fun _ => true)
    (fun _ _ _ _ => rfl) (hfilter.symm ▸ hn)
  rw [hfilter] at hsorted hmem hall
  have hnodup : (visits key l n (start key l)).Nodup :=
    hsorted.imp fun hlt heq => ne_of_lt hlt (congrArg key heq)
  refine ⟨(List.perm_ext_iff_of_nodup hnodup hl).mpr fun a => ⟨hmem a, fun ha => ?_⟩, hsorted⟩
  obtain ⟨b, hb, heq⟩ := hall a ha
  exact hkey b (hmem b hb) a ha heq ▸ hb

section Divided
variable (key l)

/-- Where a walk is after `n` items. -/
def after : ℕ → Option α → Option α
  | 0, o => o
  | _ + 1, none => none
  | n + 1, some r => after n (skip key l r)

variable {key l} in
theorem after_mem (n : ℕ) {o : Option α} (ho : ∀ r ∈ o, r ∈ l) : ∀ r ∈ after key l n o, r ∈ l := by
  induction n generalizing o with
  | zero => exact ho
  | succ n ih =>
    cases o with
    | none => exact ho
    | some r => exact ih fun a ha => (List.mem_filter.mp (start_eq_some ha).1).1

theorem visits_none (n : ℕ) : visits key l n none = [] := by cases n <;> rfl

theorem visits_add (n m : ℕ) (o : Option α) :
    visits key l (n + m) o = visits key l n o ++ visits key l m (after key l n o) := by
  induction n generalizing o with
  | zero => rw [Nat.zero_add]; rfl
  | succ n ih =>
    rw [Nat.add_right_comm]
    cases o with
    | none => exact (visits_none key l m).symm
    | some r => exact congrArg (r :: ·) (ih _)

theorem visits_take {n k : ℕ} (h : n ≤ k) (o : Option α) :
    (visits key l k o).take n = visits key l n o := by
  induction n generalizing k o with
  | zero => rfl
  | succ n ih =>
    obtain ⟨k, rfl⟩ := Nat.exists_eq_add_of_le' h
    cases o with
    | none => rfl
    | some r => exact congrArg (r :: ·) (ih (Nat.le_add_left n k) _)

variable {key l}

/-- A walk that is divided goes through the same items. -/
theorem visits_divided (hl : l.Nodup) (hkey : ∀ a ∈ l, ∀ b ∈ l, key a = key b → a = b) :
    ∃ order : List α, order.Perm l ∧ order.Pairwise (fun a b => key a < key b) ∧
      ∀ n m, visits key l n (start key l) = order.take n ∧
        visits key l m (after key l n (start key l)) = (order.drop n).take m := by
  obtain ⟨hperm, hsorted⟩ := visits_perm hl hkey (le_refl l.length)
  have htake (n : ℕ) : visits key l n (start key l) =
      (visits key l l.length (start key l)).take n := by
    cases Nat.le_total n l.length with
    | inl hle => exact (visits_take key l hle _).symm
    | inr hle =>
      have hall := (visits_perm hl hkey hle).1.length_eq
      rw [List.take_of_length_le (hperm.length_eq.trans_le hle), ← visits_take key l hle,
        List.take_of_length_le hall.le]
  refine ⟨_, hperm, hsorted, fun n m => ⟨htake n, ?_⟩⟩
  have hsum := htake (n + m)
  rw [visits_add, List.take_add, ← htake n] at hsum
  exact List.append_cancel_left hsum

theorem after_add (n m : ℕ) (o : Option α) :
    after key l (n + m) o = after key l m (after key l n o) := by
  induction n generalizing o with
  | zero => rw [Nat.zero_add]; rfl
  | succ n ih =>
    rw [Nat.add_right_comm]
    cases o with
    | none => cases m <;> rfl
    | some r => exact ih _

end Divided

section Calls
variable {σ β : Type*}

/-- What successive calls find, each of which goes on where the last one has ended. No result means
that one of them does not end. -/
def calls (call : ℕ → σ → Option (β × σ)) : List ℕ → σ → Option (List β)
  | [], _ => some []
  | lim :: lims, s => (call lim s).bind fun r => (calls call lims r.2).map (r.1 :: ·)

/-- Calls that walk over the items, from the lowest on, find them piece by piece. -/
theorem calls_divided (call : ℕ → σ → Option (β × σ)) (at_ : Option α → σ) (f : List α → β)
    (hcall : ∀ n o, (∀ r ∈ o, r ∈ l) →
      call n (at_ o) = some (f (visits key l n o), at_ (after key l n o)))
    (hl : l.Nodup) (hkey : ∀ a ∈ l, ∀ b ∈ l, key a = key b → a = b) :
    ∃ order : List α, order.Perm l ∧ order.Pairwise (fun a b => key a < key b) ∧
      ∀ lims, calls call lims (at_ (start key l)) = some ((lims.splitLengths order).map f) := by
  obtain ⟨order, hperm, hsorted, hdivided⟩ := visits_divided hl hkey
  have hstart : ∀ r ∈ start key l, r ∈ l := fun r hr => (start_eq_some hr).1
  -- the calls that are left go on behind the items found so far
  have hfrom (lims : List ℕ) (n : ℕ) : calls call lims (at_ (after key l n (start key l))) =
      some ((lims.splitLengths (order.drop n)).map f) := by
    induction lims generalizing n with
    | nil => rfl
    | cons m lims ih =>
      rw [calls, hcall m _ (after_mem n hstart), (hdivided n m).2, Option.bind_some, ← after_add,
        ih, List.splitLengths_cons, List.drop_drop]
      rfl
  exact ⟨order, hperm, hsorted, fun lims => hfrom lims 0⟩

end Calls

end Selection
