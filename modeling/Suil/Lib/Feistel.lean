import Mathlib.Data.Nat.Notation

/-! Balanced Feistel networks: rounds that are undone one by one, whatever the round function
is, over a cancelling operation. -/
namespace Feistel

variable {α : Type*}

/-- The same operand twice has no effect. -/
def Cancels (op : α → α → α) : Prop := ∀ a b, op (op a b) b = a

section Rounds
variable (op : α → α → α) (F : ℕ → α → α)

def round (i : ℕ) (x : α × α) : α × α := (x.2, op x.1 (F i x.2))

def unround (i : ℕ) (x : α × α) : α × α := (op x.2 (F i x.1), x.1)

/-- The first `n` rounds. -/
def rounds : ℕ → α × α → α × α
  | 0, x => x
  | n + 1, x => round op F n (rounds n x)

/-- The first `n` rounds backwards. -/
def unrounds : ℕ → α × α → α × α
  | 0, x => x
  | n + 1, x => unrounds n (unround op F n x)

end Rounds

variable {op : α → α → α} {F : ℕ → α → α} {P : α → Prop}

theorem unround_round (h : Cancels op) (i : ℕ) (x : α × α) :
    unround op F i (round op F i x) = x := by
  have hleft : op (op x.1 (F i x.2)) (F i x.2) = x.1 := h _ _
  exact Prod.ext hleft rfl

theorem unrounds_rounds (h : Cancels op) (n : ℕ) (x : α × α) :
    unrounds op F n (rounds op F n x) = x := by
  induction n with
  | zero => rfl
  | succ n ih => rw [rounds, unrounds, unround_round h, ih]

theorem round_unround (h : Cancels op) (i : ℕ) (x : α × α) :
    round op F i (unround op F i x) = x := by
  have hright : op (op x.2 (F i x.1)) (F i x.1) = x.2 := h _ _
  exact Prod.ext rfl hright

theorem rounds_unrounds (h : Cancels op) (n : ℕ) (x : α × α) :
    rounds op F n (unrounds op F n x) = x := by
  induction n generalizing x with
  | zero => rfl
  | succ n ih => rw [rounds, unrounds, ih, round_unround h]

/-- What the operation and the round function keep of both halves. -/
theorem rounds_keeps (hop : ∀ a b, P a → P b → P (op a b)) (hF : ∀ i a, P (F i a)) (n : ℕ)
    {x : α × α} (hx : P x.1 ∧ P x.2) : P (rounds op F n x).1 ∧ P (rounds op F n x).2 := by
  induction n with
  | zero => exact hx
  | succ n ih => exact ⟨ih.2, hop _ _ ih.1 (hF _ _)⟩

theorem unrounds_keeps (hop : ∀ a b, P a → P b → P (op a b)) (hF : ∀ i a, P (F i a)) (n : ℕ)
    {x : α × α} (hx : P x.1 ∧ P x.2) : P (unrounds op F n x).1 ∧ P (unrounds op F n x).2 := by
  induction n generalizing x with
  | zero => exact hx
  | succ n ih => exact ih ⟨hop _ _ hx.2 (hF _ _), hx.1⟩

end Feistel
