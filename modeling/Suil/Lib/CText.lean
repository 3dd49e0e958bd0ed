import Mathlib.Data.List.TakeWhile

/-! Strings as C has them: bytes up to a NUL, which `strcasecmp` compares without their case. -/
namespace CText

abbrev Str := List UInt8

/-- Text whose bytes are written as characters. -/
abbrev Chars := List Char

/-- What the functions of C see of a buffer. -/
def cString (s : Str) : Str := s.takeWhile (· ≠ 0)

def tolower (b : UInt8) : UInt8 := if 'A'.toUInt8 ≤ b ∧ b ≤ 'Z'.toUInt8 then b + 32 else b

/-- Equal up to letter case. -/
def sameLetters (a b : Str) : Bool := a.map tolower = b.map tolower

/-- Whether `strcasecmp` gives zero. -/
def strcaseeq (a b : Str) : Bool := sameLetters (cString a) (cString b)

/-- `n` bytes from `p` on, or as many as there are. -/
def substr (s : Str) (p n : ℕ) : Str := (s.drop p).take n

variable {a b s : Str}

theorem cString_eq (h : 0 ∉ s) : cString s = s :=
  List.takeWhile_eq_self_iff.mpr fun _ hb => decide_eq_true fun hzero => h (hzero ▸ hb)

theorem length_cString_le (s : Str) : (cString s).length ≤ s.length :=
  (List.takeWhile_sublist _).length_le

theorem cString_append (h : 0 ∉ s) (t : Str) : cString (s ++ t) = s ++ cString t :=
  List.takeWhile_append_of_pos fun _ hb => decide_eq_true fun hzero => h (hzero ▸ hb)

theorem cString_append_of_mem (h : 0 ∈ s) (t : Str) : cString (s ++ t) = cString s := by
  rw [cString, List.takeWhile_append, if_neg]
  · rfl
  · intro hlen
    have hall : s.takeWhile (· ≠ 0) = s := (List.takeWhile_prefix _).eq_of_length hlen
    rw [← hall] at h
    exact absurd (List.mem_takeWhile_imp h) (by decide)

theorem cString_eq_nil_iff (s : Str) : cString s = [] ↔ s.head? = none ∨ s.head? = some 0 := by
  cases s with
  | nil => exact iff_of_true rfl (.inl rfl)
  | cons c s =>
    rw [cString, List.head?_cons]
    by_cases hc : c = 0
    · rw [List.takeWhile_cons_of_neg (by simp [hc])]
      exact iff_of_true rfl (.inr (congrArg some hc))
    · rw [List.takeWhile_cons_of_pos (by simp [hc])]
      refine iff_of_false (List.cons_ne_nil _ _) ?_
      rintro (h | h)
      · cases h
      · exact hc (Option.some.inj h)

theorem sameLetters_iff : sameLetters a b ↔ a.map tolower = b.map tolower := decide_eq_true_iff

theorem strcaseeq_iff : strcaseeq a b ↔ (cString a).map tolower = (cString b).map tolower :=
  sameLetters_iff

theorem strcaseeq_congr (h : strcaseeq a b) (s : Str) : strcaseeq s a = strcaseeq s b := by
  rw [strcaseeq, strcaseeq, sameLetters, sameLetters, strcaseeq_iff.mp h]

theorem map_tolower_eq_of_strcaseeq (h : strcaseeq a b) (ha : 0 ∉ a) (hb : 0 ∉ b) :
    a.map tolower = b.map tolower := by
  have heq := strcaseeq_iff.mp h
  rwa [cString_eq ha, cString_eq hb] at heq

end CText
