import Mathlib.Data.Nat.Notation
import Mathlib.Algebra.Ring.Nat

/-! Bit strings, most significant bit first: the bits of a number, the number that bits write,
and a string cut into groups of one size. -/
namespace Bits

/-- The `k` low bits of `n`. -/
def bits : ℕ → ℕ → List Bool
  | 0, _ => []
  | k + 1, n => n.testBit k :: bits k n

/-- The number that is written by the bits. -/
def number : List Bool → ℕ
  | [] => 0
  | b :: s => b.toNat * 2 ^ s.length + number s

/-- The string cut into groups of `k` bits, the last one filled with zero bits. -/
def groups (k : ℕ) (s : List Bool) : List (List Bool) :=
  if s = [] ∨ k = 0 then [] else (s.take k).rightpad k false :: groups k (s.drop k)
termination_by s.length
decreasing_by
  rename_i h
  have hs : 0 < s.length := List.length_pos_iff.mpr fun hs => h (.inl hs)
  have hk : k ≠ 0 := fun hk => h (.inr hk)
  rw [List.length_drop]
  omega

variable {k n m i j : ℕ} {s g : List Bool}

@[simp] theorem length_bits : (bits k n).length = k := by
  induction k with
  | zero => rfl
  | succ k ih => rw [bits, List.length_cons, ih]

theorem number_bits : number (bits k n) = n % 2 ^ k := by
  induction k with
  | zero => rw [bits, number, Nat.pow_zero, Nat.mod_one]
  | succ k ih =>
    have hbit : (n.testBit k).toNat = n / 2 ^ k % 2 := Nat.toNat_testBit n k
    rw [bits, number, length_bits, ih, hbit, Nat.pow_succ, Nat.mod_mul, Nat.add_comm,
      Nat.mul_comm]

theorem number_bits_of_lt (h : n < 2 ^ k) : number (bits k n) = n := by
  rw [number_bits, Nat.mod_eq_of_lt h]

theorem bits_zero : bits k 0 = List.replicate k false := by
  induction k with
  | zero => rfl
  | succ k ih => rw [bits, ih, Nat.zero_testBit, List.replicate_succ]

/-- The high bits of a number do not matter. -/
theorem bits_add_mul (hm : m < 2 ^ j) (hk : k ≤ j) : bits k (2 ^ j * n + m) = bits k m := by
  induction k with
  | zero => rfl
  | succ k ih =>
    have hbit : (2 ^ j * n + m).testBit k = m.testBit k := by
      rw [Nat.testBit_two_pow_mul_add n hm, if_pos (by omega)]
    rw [bits, bits, ih (by omega), hbit]

theorem bits_append (hm : m < 2 ^ j) : bits i n ++ bits j m = bits (i + j) (2 ^ j * n + m) := by
  induction i with
  | zero => rw [Nat.zero_add, bits_add_mul hm (Nat.le_refl j), bits, List.nil_append]
  | succ i ih =>
    have hbit : (2 ^ j * n + m).testBit (i + j) = n.testBit i := by
      rw [Nat.testBit_two_pow_mul_add n hm, if_neg (by omega), Nat.add_sub_cancel]
    rw [bits, List.cons_append, ih, Nat.succ_add, bits, hbit]

@[simp] theorem groups_nil : groups k [] = [] := by
  rw [groups, if_pos (.inl rfl)]

theorem groups_append (hk : 0 < k) (hg : g.length = k) :
    groups k (g ++ s) = g :: groups k s := by
  have hne : ¬ (g ++ s = [] ∨ k = 0) := by
    rintro (hnil | hzero)
    · rw [(List.append_eq_nil_iff.mp hnil).1, List.length_nil] at hg
      omega
    · omega
  subst hg
  rw [groups, if_neg hne, List.take_left, List.drop_left, List.rightpad, Nat.sub_self,
    List.replicate_zero, List.append_nil]

/-- The last group, as the bits of a number with zeros behind it. -/
theorem groups_last (hi : 0 < i) (hj : i + j = k) :
    groups k (bits i n) = [bits k (2 ^ j * n)] := by
  have hlen : (bits i n).length = i := length_bits
  have hne : ¬ (bits i n = [] ∨ k = 0) := by
    rintro (hnil | hzero)
    · rw [hnil, List.length_nil] at hlen
      omega
    · omega
  have hfill : bits i n ++ List.replicate j false = bits k (2 ^ j * n) := by
    rw [← bits_zero, bits_append (Nat.two_pow_pos j), Nat.add_zero, hj]
  have hsub : k - i = j := by omega
  rw [groups, if_neg hne, List.take_of_length_le (by omega), List.drop_eq_nil_of_le (by omega),
    groups_nil, List.rightpad, hlen, hsub, hfill]

end Bits
