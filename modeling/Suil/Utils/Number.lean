import Suil.Utils.Hex
import Mathlib.Data.Nat.Digits.Lemmas
import Mathlib.Algebra.Ring.Int.Defs

/-! `tostr` and `to_number`, over `std::to_string` and a `strtoll` that is given a base it knows. -/
namespace Suil.Utils.Number

open CText (Str)
open Hex (Fault)

/-- The digits of a number, from the highest to the lowest. -/
def decimal (n : ℕ) : List ℕ := if n = 0 then [0] else (Nat.digits 10 n).reverse

def digitChar (d : ℕ) : UInt8 := '0'.toUInt8 + .ofNat d

def to_string (v : ℤ) : Str :=
  if v < 0 then '-'.toUInt8 :: (decimal v.natAbs).map digitChar
  else (decimal v.natAbs).map digitChar

def tostr (v : ℤ) : Str := to_string v

def isspace (c : UInt8) : Bool := c = ' '.toUInt8 ∨ '\t'.toUInt8 ≤ c ∧ c ≤ '\r'.toUInt8

def digitValue (base : ℕ) (c : UInt8) : Option ℕ :=
  let d :=
    if '0'.toUInt8 ≤ c ∧ c ≤ '9'.toUInt8 then (c - '0'.toUInt8).toNat
    else if 'a'.toUInt8 ≤ c ∧ c ≤ 'z'.toUInt8 then (c - 'a'.toUInt8).toNat + 10
    else if 'A'.toUInt8 ≤ c ∧ c ≤ 'Z'.toUInt8 then (c - 'A'.toUInt8).toNat + 10
    else 36
  if d < base then some d else none

/-- The value of the digits at the front, after the value `acc`, and what follows them. -/
def readDigits (base acc : ℕ) : Str → ℕ × Str
  | [] => (acc, [])
  | c :: s =>
    match digitValue base c with
    | some d => readDigits base (acc * base + d) s
    | none => (acc, c :: s)

/-- Whether there is a minus, and what follows the sign. -/
def readSign : Str → Bool × Str
  | [] => (false, [])
  | c :: s =>
    if c = '-'.toUInt8 then (true, s) else if c = '+'.toUInt8 then (false, s) else (false, c :: s)

/-- The base that counts, and what follows a prefix "0x". -/
def readBase (base : ℕ) (s : Str) : ℕ × Str :=
  if base ≠ 0 ∧ base ≠ 16 then (base, s)
  else
    match s with
    | z :: x :: c :: s =>
      if z = '0'.toUInt8 ∧ (x = 'x'.toUInt8 ∨ x = 'X'.toUInt8) ∧ (digitValue 16 c).isSome then
        (16, c :: s)
      else (if base = 16 then 16 else if z = '0'.toUInt8 then 8 else 10, z :: x :: c :: s)
    | z :: s => (if base = 16 then 16 else if z = '0'.toUInt8 then 8 else 10, z :: s)
    | [] => (base, [])

def INT64_MIN : ℤ := -2 ^ 63

def INT64_MAX : ℤ := 2 ^ 63 - 1

def ERANGE : ℕ := 34

/-- What `strtoll` returns, `errno`, and what `ep` points to. -/
structure Converted where
  l : ℤ
  errno : ℕ
  ep : Str

def clamp (l : ℤ) (ep : Str) : Converted :=
  if l < INT64_MIN then ⟨INT64_MIN, ERANGE, ep⟩
  else if INT64_MAX < l then ⟨INT64_MAX, ERANGE, ep⟩
  else ⟨l, 0, ep⟩

def strtoll (cstr : Str) (base : ℕ) : Converted :=
  let signed := readSign (cstr.dropWhile isspace)
  let based := readBase base signed.2
  if (based.2.head?.bind (digitValue based.1)).isNone then ⟨0, 0, cstr⟩
  else
    let read := readDigits based.1 0 based.2
    clamp (if signed.1 then -read.1 else read.1) read.2

def matchany (c : UInt8) (cs : Str) : Bool := c ∈ cs

/-- `ep` points into the copy of `str`, so that it is never `str.data()`. -/
def strtonum (str : Str) (base : ℕ) (min max : ℤ) : Except Fault ℤ :=
  if str.length > 19 then
    .error (.OutOfRange "suil::strtonum - to many characters in string number")
  else if min > max then
    .error (.OutOfRange "suil::strtonum - min value specified is greater than max")
  else
    let r := strtoll str base
    if r.errno ≠ 0 ∨ ¬ matchany (r.ep.headD 0) ['.'.toUInt8, 0] then
      .error (.InvalidArguments ("utils::strtonum - failed, errno = " ++ toString r.errno))
    else if r.l < min then
      .error (.OutOfRange "utils::strtonum -converted value is less than min value")
    else if r.l > max then
      .error (.OutOfRange "utils::strtonum -converted value is greator than max value")
    else .ok r.l

/-- The integral types of at most 64 bits. -/
inductive Integral
  | bool
  | signed (bits : ℕ) (le : bits < 64)
  | unsigned (bits : ℕ) (le : bits ≤ 64)

/-- The values of a type; `signed n` has `n` bits and the sign. -/
def Integral.Value : Integral → ℤ → Prop
  | bool, v => v = 0 ∨ v = 1
  | signed bits _, v => -2 ^ bits ≤ v ∧ v < 2 ^ bits
  | unsigned bits _, v => 0 ≤ v ∧ v < 2 ^ bits

/-- `T(l)`. -/
def Integral.cast : Integral → ℤ → ℤ
  | bool, l => if l = 0 then 0 else 1
  | signed bits _, l => (l + 2 ^ bits) % 2 ^ (bits + 1) - 2 ^ bits
  | unsigned bits _, l => l % 2 ^ bits

def to_number (T : Integral) (str : Str) : Except Fault ℤ :=
  (strtonum str 10 INT64_MIN INT64_MAX).map T.cast

section Decimal
variable {n k d : ℕ}

theorem decimal_lt (h : d ∈ decimal n) : d < 10 := by
  unfold decimal at h
  split_ifs at h
  · rw [List.mem_singleton.mp h]
    omega
  · exact Nat.digits_lt_base (by omega) (List.mem_reverse.mp h)

theorem decimal_ne_nil (n : ℕ) : decimal n ≠ [] := by
  unfold decimal
  split_ifs with hn
  · exact List.cons_ne_nil _ _
  · exact fun h => hn (Nat.digits_eq_nil_iff_eq_zero.mp (List.reverse_eq_nil_iff.mp h))

theorem decimal_value (n : ℕ) : (decimal n).foldl (fun acc d => acc * 10 + d) 0 = n := by
  unfold decimal
  split_ifs with hn
  · rw [hn]
    rfl
  · have hfold : (Nat.digits 10 n).foldr (fun d acc => acc * 10 + d) 0 = n := by
      have h := Nat.ofDigits_digits 10 n
      rw [Nat.ofDigits_eq_foldr] at h
      have hfun : (fun d acc : ℕ => acc * 10 + d) = fun d acc => (d : ℕ) + 10 * acc := by
        funext d acc
        omega
      rw [hfun]
      exact h
    rw [List.foldl_reverse, hfold]

theorem decimal_length_le_iff (hk : 0 < k) : (decimal n).length ≤ k ↔ n < 10 ^ k := by
  unfold decimal
  split_ifs with hn
  · have hpos : 0 < 10 ^ k := Nat.pow_pos (by omega)
    rw [hn]
    exact iff_of_true hk hpos
  · rw [List.length_reverse]
    exact Nat.digits_length_le_iff (by omega) n

end Decimal

section Strtoll
variable {d : ℕ} {v : ℤ} {ds : List ℕ} {s : Str}

/-- A digit is neither a space nor a sign. -/
theorem digitChar_cases (hd : d < 10) : digitValue 10 (digitChar d) = some d ∧
    isspace (digitChar d) = false ∧ digitChar d ≠ '-'.toUInt8 ∧ digitChar d ≠ '+'.toUInt8 := by
  have h : ∀ d < 10, digitValue 10 (digitChar d) = some d ∧ isspace (digitChar d) = false ∧
      digitChar d ≠ '-'.toUInt8 ∧ digitChar d ≠ '+'.toUInt8 := by decide
  exact h d hd

theorem readDigits_map (hds : ∀ d ∈ ds, d < 10) (acc : ℕ) :
    readDigits 10 acc (ds.map digitChar) = (ds.foldl (fun acc d => acc * 10 + d) acc, []) := by
  induction ds generalizing acc with
  | nil => rfl
  | cons d ds ih =>
    have hd := (digitChar_cases (hds d List.mem_cons_self)).1
    rw [List.map_cons, readDigits, hd]
    exact ih (fun e he => hds e (List.mem_cons_of_mem d he)) _

theorem readBase_ten (s : Str) : readBase 10 s = (10, s) := by
  unfold readBase
  exact if_pos ⟨by omega, by omega⟩

/-- Behind the sign, if there is one, the digits are read to the end. -/
theorem strtoll_of_sign {negative : Bool} {n : ℕ}
    (h : readSign (s.dropWhile isspace) = (negative, (decimal n).map digitChar)) :
    strtoll s 10 = clamp (if negative then -n else n) [] := by
  have hlt : ∀ d ∈ decimal n, d < 10 := fun d hd => decimal_lt hd
  have hread := readDigits_map hlt 0
  rw [decimal_value] at hread
  have hfirst : (((decimal n).map digitChar).head?.bind (digitValue 10)).isNone = false := by
    cases hn : decimal n with
    | nil => exact absurd hn (decimal_ne_nil n)
    | cons d ds =>
      have hd := (digitChar_cases (hlt d (hn ▸ List.mem_cons_self))).1
      rw [List.map_cons, List.head?_cons, Option.bind_some, hd]
      rfl
  rw [strtoll, h]
  simp only [readBase_ten, hfirst, hread, Bool.false_eq_true, if_false]

theorem readSign_digits (n : ℕ) :
    readSign (((decimal n).map digitChar).dropWhile isspace) = (false, (decimal n).map digitChar) := by
  cases hn : decimal n with
  | nil => exact absurd hn (decimal_ne_nil n)
  | cons d ds =>
    have hlt : d < 10 := decimal_lt (hn ▸ List.mem_cons_self)
    obtain ⟨-, hspace, hminus, hplus⟩ := digitChar_cases hlt
    rw [List.map_cons, List.dropWhile_cons, hspace, if_neg Bool.false_ne_true, readSign,
      if_neg hminus, if_neg hplus]

theorem strtoll_to_string (v : ℤ) : strtoll (to_string v) 10 = clamp v [] := by
  unfold to_string
  split_ifs with hv
  · have hsign : readSign (('-'.toUInt8 :: (decimal v.natAbs).map digitChar).dropWhile isspace) =
        (true, (decimal v.natAbs).map digitChar) := rfl
    have habs : -(v.natAbs : ℤ) = v := by omega
    rw [strtoll_of_sign hsign, if_pos rfl, habs]
  · have habs : (v.natAbs : ℤ) = v := by omega
    rw [strtoll_of_sign (readSign_digits _), if_neg Bool.false_ne_true, habs]

theorem to_string_length_le_iff (v : ℤ) :
    (to_string v).length ≤ 19 ↔ -10 ^ 18 < v ∧ v < 10 ^ 19 := by
  unfold to_string
  split_ifs with hv
  · have h := decimal_length_le_iff (n := v.natAbs) (k := 18) (by omega)
    rw [List.length_cons, List.length_map, Nat.succ_le_succ_iff, h]
    omega
  · have h := decimal_length_le_iff (n := v.natAbs) (k := 19) (by omega)
    rw [List.length_map, h]
    omega

end Strtoll

section RoundTrip
variable {T : Integral} {v : ℤ}

theorem cast_of_value (h : T.Value v) : T.cast v = v := by
  cases T with
  | bool =>
    rcases h with rfl | rfl
    · rfl
    · rfl
  | signed bits le =>
    obtain ⟨hlo, hhi⟩ := h
    have hpow : (2 : ℤ) ^ (bits + 1) = 2 * 2 ^ bits := by rw [Int.pow_succ, Int.mul_comm]
    have hmod : (v + 2 ^ bits) % 2 ^ (bits + 1) = v + 2 ^ bits :=
      Int.emod_eq_of_lt (by omega) (by omega)
    show (v + 2 ^ bits) % 2 ^ (bits + 1) - 2 ^ bits = v
    rw [hmod]
    omega
  | unsigned bits le => exact Int.emod_eq_of_lt h.1 h.2

theorem strtonum_long (h : 19 < (to_string v).length) :
    strtonum (to_string v) 10 INT64_MIN INT64_MAX =
      .error (.OutOfRange "suil::strtonum - to many characters in string number") := by
  rw [strtonum, if_pos h]

theorem strtonum_short (h : (to_string v).length ≤ 19) (hv : v < 2 ^ 63) :
    strtonum (to_string v) 10 INT64_MIN INT64_MAX = .ok v := by
  have hlo : -10 ^ 18 < v := ((to_string_length_le_iff v).mp h).1
  have hmin : ¬ v < INT64_MIN := by
    unfold INT64_MIN
    omega
  have hmax : ¬ INT64_MAX < v := by
    unfold INT64_MAX
    omega
  have hclamp : clamp v [] = ⟨v, 0, []⟩ := by rw [clamp, if_neg hmin, if_neg hmax]
  have hwindow : ¬ INT64_MIN > INT64_MAX := by decide
  have hend : ¬ ((0 : ℕ) ≠ 0 ∨ ¬ matchany (([] : Str).headD 0) ['.'.toUInt8, 0]) := by decide
  rw [strtonum, if_neg (Nat.not_lt.mpr h), if_neg hwindow, strtoll_to_string, hclamp]
  show (if (0 : ℕ) ≠ 0 ∨ ¬ matchany (([] : Str).headD 0) ['.'.toUInt8, 0] then _
    else if v < INT64_MIN then _ else if INT64_MAX < v then _ else Except.ok v) = Except.ok v
  rw [if_neg hend, if_neg hmin, if_neg hmax]

theorem strtonum_above (h : (to_string v).length ≤ 19) (hv : 2 ^ 63 ≤ v) :
    strtonum (to_string v) 10 INT64_MIN INT64_MAX =
      .error (.InvalidArguments ("utils::strtonum - failed, errno = " ++ toString ERANGE)) := by
  have hmin : ¬ v < INT64_MIN := by
    unfold INT64_MIN
    omega
  have hmax : INT64_MAX < v := by
    unfold INT64_MAX
    omega
  have hclamp : clamp v [] = ⟨INT64_MAX, ERANGE, []⟩ := by rw [clamp, if_neg hmin, if_pos hmax]
  have hwindow : ¬ INT64_MIN > INT64_MAX := by decide
  rw [strtonum, if_neg (Nat.not_lt.mpr h), if_neg hwindow, strtoll_to_string, hclamp]
  exact if_pos (Or.inl (by decide))

end RoundTrip

/-- `strtonum` reads at most 19 characters and no number above `INT64_MAX`. -/
theorem to_number_tostr_iff (T : Integral) (v : ℤ) (h : T.Value v) :
    to_number T (tostr v) = .ok v ↔ -10 ^ 18 < v ∧ v < 2 ^ 63 := by
  unfold to_number tostr
  by_cases hlen : (to_string v).length ≤ 19
  · obtain ⟨hlo, -⟩ := (to_string_length_le_iff v).mp hlen
    by_cases hv : v < 2 ^ 63
    · rw [strtonum_short hlen hv]
      exact iff_of_true (congrArg Except.ok (cast_of_value h)) ⟨hlo, hv⟩
    · rw [strtonum_above hlen (Int.not_lt.mp hv)]
      refine iff_of_false ?_ fun hr => hv hr.2
      exact fun heq => by cases heq
  · rw [strtonum_long (Nat.not_le.mp hlen)]
    refine iff_of_false ?_ fun hr => hlen ((to_string_length_le_iff v).mpr ⟨hr.1, by omega⟩)
    exact fun heq => by cases heq

/-- Both ends of the 64-bit types. -/
theorem to_number_tostr_iff_bounds :
    (to_number (.signed 63 (by decide)) (tostr (-2 ^ 63)) = .ok (-2 ^ 63) ↔
      (-10 ^ 18 : ℤ) < -2 ^ 63 ∧ (-2 ^ 63 : ℤ) < 2 ^ 63) ∧
    (to_number (.unsigned 64 (by decide)) (tostr (2 ^ 64 - 1)) = .ok (2 ^ 64 - 1) ↔
      (-10 ^ 18 : ℤ) < 2 ^ 64 - 1 ∧ (2 ^ 64 - 1 : ℤ) < 2 ^ 63) :=
  ⟨to_number_tostr_iff (.signed 63 (by decide)) (-2 ^ 63) ⟨by decide, by decide⟩,
    to_number_tostr_iff (.unsigned 64 (by decide)) (2 ^ 64 - 1) ⟨by decide, by decide⟩⟩

/-- The least value of `int64_t` has 20 characters. -/
theorem to_number_tostr_fails :
    ¬ ∀ (T : Integral) (v : ℤ), T.Value v → to_number T (tostr v) = .ok v := by
  intro hall
  have hvalue : (Integral.signed 63 (by decide)).Value (-2 ^ 63) := ⟨by decide, by decide⟩
  have hok := hall (.signed 63 (by decide)) (-2 ^ 63) hvalue
  have hlong : 19 < (to_string (-2 ^ 63)).length := by
    rw [← Nat.not_le, to_string_length_le_iff]
    omega
  unfold to_number tostr at hok
  rw [strtonum_long hlong] at hok
  cases hok

end Suil.Utils.Number
