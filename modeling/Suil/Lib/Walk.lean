import Mathlib.Combinatorics.Pigeonhole

/-! A walk that goes on by a partial function. Over finitely many places it comes to an end, or it
comes back to where it has been and then goes on for ever. -/
namespace Walk

variable {α : Type*} {f : α → Option α} {a p : α} {i j m n : ℕ} {S : Finset α}

/-- The place after `n` steps; `none` if the walk has ended before. -/
def walk (f : α → Option α) : ℕ → α → Option α
  | 0, a => some a
  | n + 1, a => (f a).bind (walk f n)

theorem walk_add (m n : ℕ) (a : α) : walk f (m + n) a = (walk f m a).bind (walk f n) := by
  induction m generalizing a with
  | zero => rw [Nat.zero_add, walk, Option.bind_some]
  | succ m ih =>
    rw [Nat.succ_add, walk, walk, Option.bind_assoc]
    exact congrArg (f a).bind (funext ih)

theorem walk_eq_none_of_le (h : walk f m a = none) (hmn : m ≤ n) : walk f n a = none := by
  obtain ⟨k, rfl⟩ := Nat.exists_eq_add_of_le hmn
  rw [walk_add, h, Option.bind_none]

theorem walk_mul (h : walk f m p = some p) (k : ℕ) : walk f (m * k) p = some p := by
  induction k with
  | zero => rfl
  | succ k ih => rw [Nat.mul_succ, walk_add, ih, Option.bind_some, h]

/-- Who comes back to a place comes back to it again. -/
theorem walk_ne_none_of_repeat (hi : walk f i a = some p) (hj : walk f j a = some p) (hij : i < j)
    (n : ℕ) : walk f n a ≠ none := by
  intro hnone
  obtain ⟨k, rfl⟩ := Nat.exists_eq_add_of_lt hij
  have hround : walk f (k + 1) p = some p := by
    rw [Nat.add_assoc, walk_add, hi, Option.bind_some] at hj
    exact hj
  have hlate : walk f (i + (k + 1) * n) a = some p := by
    rw [walk_add, hi, Option.bind_some, walk_mul hround]
  have hle : n ≤ i + (k + 1) * n := by
    rw [Nat.succ_mul]
    omega
  rw [walk_eq_none_of_le hnone hle] at hlate
  cases hlate

theorem eq_of_ends (h : walk f n a = none) (hi : walk f i a = some p) (hj : walk f j a = some p) :
    i = j := by
  by_contra hne
  cases Nat.lt_or_gt_of_ne hne with
  | inl hlt => exact walk_ne_none_of_repeat hi hj hlt n h
  | inr hlt => exact walk_ne_none_of_repeat hj hi hlt n h

/-- A walk that never ends has more steps than places. -/
theorem exists_repeat (hf : ∀ a b, f a = some b → b ∈ S) (h : walk f (S.card + 1) a ≠ none) :
    ∃ i j p, i < j ∧ walk f i a = some p ∧ walk f j a = some p := by
  have hsome : ∀ n ≤ S.card + 1, ∃ p, walk f n a = some p := fun n hn =>
    Option.ne_none_iff_exists'.mp fun hnone => h (walk_eq_none_of_le hnone hn)
  have : Nonempty α := ⟨a⟩
  choose! g hg using hsome
  have hmem : ∀ n ∈ Finset.range (S.card + 1), g (n + 1) ∈ S := fun n hn => by
    have hlt := Finset.mem_range.mp hn
    have hnext := hg (n + 1) (by omega)
    rw [walk_add, hg n (by omega), Option.bind_some, walk] at hnext
    cases hstep : f (g n) with
    | none => rw [hstep] at hnext; cases hnext
    | some b =>
      rw [hstep, Option.bind_some, walk] at hnext
      exact Option.some.inj hnext ▸ hf _ _ hstep
  obtain ⟨x, hx, y, hy, hne, heq⟩ := Finset.exists_ne_map_eq_of_card_lt_of_maps_to
    (by rw [Finset.card_range]; exact Nat.lt_succ_self _) hmem
  rw [Finset.mem_range] at hx hy
  cases Nat.lt_or_gt_of_ne hne with
  | inl hlt => exact ⟨x + 1, y + 1, _, by omega, hg _ (by omega), heq ▸ hg _ (by omega)⟩
  | inr hlt => exact ⟨y + 1, x + 1, _, by omega, hg _ (by omega), heq ▸ hg _ (by omega)⟩

/-- A walk over the places of `S` ends if and only if it never comes back to a place. -/
theorem ends_iff (hf : ∀ a b, f a = some b → b ∈ S) (a : α) :
    walk f (S.card + 1) a = none ↔
      ∀ i j p, walk f i a = some p → walk f j a = some p → i = j := by
  constructor
  · exact fun h i j p => eq_of_ends h
  · intro h
    by_contra hne
    obtain ⟨i, j, p, hij, hi, hj⟩ := exists_repeat hf hne
    exact absurd (h i j p hi hj) (Nat.ne_of_lt hij)

end Walk
