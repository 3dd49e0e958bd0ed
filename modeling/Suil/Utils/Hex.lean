import Suil.Lib.CText
import Mathlib.Data.List.GetD
import Mathlib.Algebra.Group.Nat.Even
import Mathlib.Data.Nat.Find
import Mathlib.Data.Nat.Notation
import Mathlib.Tactic.Push
import Mathlib.Algebra.Ring.Nat

/-! `hexstr` and `bytes`, and the digits that they share. A null pointer is `none`. A buffer is
shorter than `2 ^ 63`, so that doubling its length does not wrap. -/
namespace Suil.Utils.Hex
open CText (tolower)

/-- An exception, or an `int` that is counted past its last value. -/
inductive Fault
  | OutOfRange (message : String)
  | InvalidArguments (message : String)
  | overflow
  deriving DecidableEq

def c2i (c : UInt8) : Except Fault UInt8 :=
  if '0'.toUInt8 ≤ c ∧ c ≤ '9'.toUInt8 then .ok (c - '0'.toUInt8)
  else if 'a'.toUInt8 ≤ c ∧ c ≤ 'f'.toUInt8 then .ok (c - 'W'.toUInt8)
  else if 'A'.toUInt8 ≤ c ∧ c ≤ 'F'.toUInt8 then .ok (c - '7'.toUInt8)
  else .error (.OutOfRange "utils::c2i - character out range")

/-- The text that is thrown begins with the name of the function and the line. -/
def i2c (c : UInt8) (caps : Bool) : Except Fault UInt8 :=
  if c ≤ 0x9 then .ok (c + '0'.toUInt8)
  else if c ≤ 0xF then .ok (c + if caps then '7'.toUInt8 else 'W'.toUInt8)
  else .error (.OutOfRange "byte out of range")

/-- The loop of `hexstr`, which writes from `rc` on. -/
def hexFrom (rc : ℕ) (out : List UInt8) : List UInt8 → Except Fault (ℕ × List UInt8)
  | [] => .ok (rc, out)
  | x :: input => do
    let high ← i2c ((0x0F : UInt8) &&& x >>> 4) false
    let low ← i2c ((0x0F : UInt8) &&& x) false
    hexFrom (rc + 2) ((out.set rc high).set (rc + 1) low) input

/-- The number of characters written, and the output buffer. -/
def hexstr : Option (List UInt8) → Option (List UInt8) → Except Fault (ℕ × Option (List UInt8))
  | some input, some out =>
    if out.length < input.length <<< 1 then .ok (0, some out)
    else (hexFrom 0 out input).map fun r => (r.1, some r.2)
  | _, out => .ok (0, out)

/-- The loop of `bytes`, from `i` on. -/
def bytesFrom (str : List UInt8) (size i : ℕ) (out : List UInt8) : Except Fault (List UInt8) :=
  if i < size then do
    let high ← c2i (str.getD i 0)
    let low ← c2i (str.getD i 0)
    if i + 1 = 2 ^ 31 then .error .overflow
    else bytesFrom str size (i + 1) (out.set i (high <<< 4 ||| low))
  else .ok out
termination_by size - i

def bytes (str : List UInt8) (out : Option (List UInt8)) : Except Fault (List UInt8) :=
  let size := str.length >>> 1
  match out with
  | none => .error (.InvalidArguments "suil::bytes - output buffer invalid")
  | some out =>
    if out.length < size then .error (.InvalidArguments "suil::bytes - output buffer invalid")
    else bytesFrom str size 0 out

def isHex (c : UInt8) : Prop := ∃ v, c2i c = .ok v

/-- What holds of the first 256 numbers holds of every byte. -/
theorem forall_byte {p : UInt8 → Prop} (h : ∀ i < 256, p (.ofNat i)) (x : UInt8) : p x := by
  have hx := h x.toNat x.toNat_lt
  rwa [UInt8.ofNat_toNat] at hx

section Digits
variable {c v x : UInt8}

/-- The character that `i2c` returns for a value below 16. -/
def digit (v : UInt8) : UInt8 := if v ≤ 0x9 then v + '0'.toUInt8 else v + 'W'.toUInt8

theorem i2c_eq (hv : v.toNat < 16) : i2c v false = .ok (digit v) := by
  have hle : v ≤ 0xF := UInt8.le_iff_toNat_le.mpr (Nat.le_of_lt_succ hv)
  unfold i2c digit
  by_cases h : v ≤ 0x9
  · rw [if_pos h, if_pos h]
  · rw [if_neg h, if_neg h, if_pos hle]
    rfl

theorem c2i_digit (hv : v.toNat < 16) : c2i (digit v) = .ok v := by
  have h : ∀ i < 16, c2i (digit (.ofNat i)) = .ok (.ofNat i) := by decide
  have := h v.toNat hv
  rwa [UInt8.ofNat_toNat] at this

set_option maxRecDepth 4000 in
/-- A digit is what its value is written as, in lower case. -/
theorem digit_of_c2i (h : c2i c = .ok v) : v.toNat < 16 ∧ digit v = tolower c := by
  have hall : ∀ i < 256, (c2i (.ofNat i)).toOption.all
      (fun w => w.toNat < 16 ∧ digit w = tolower (.ofNat i)) := by decide
  have hc := forall_byte (p := fun c => (c2i c).toOption.all
    fun w => w.toNat < 16 ∧ digit w = tolower c) hall c
  simp only [h] at hc
  exact of_decide_eq_true hc

/-- The two digits of a byte. -/
def high (x : UInt8) : UInt8 := (0x0F : UInt8) &&& x >>> 4

def low (x : UInt8) : UInt8 := 0x0F &&& x

theorem and_lt (y : UInt8) : ((0x0F : UInt8) &&& y).toNat < 16 := by
  have hand : ((0x0F : UInt8) &&& y).toNat = 15 &&& y.toNat := UInt8.toNat_and 0x0F y
  have hle : 15 &&& y.toNat ≤ 15 := Nat.and_le_left
  omega

theorem high_lt (x : UInt8) : (high x).toNat < 16 := and_lt _

theorem low_lt (x : UInt8) : (low x).toNat < 16 := and_lt _

/-- What `bytes` makes of a digit. -/
def twice (v : UInt8) : UInt8 := v <<< 4 ||| v

theorem high_twice (hv : v.toNat < 16) : high (twice v) = v := by
  have h : ∀ i < 16, high (twice (.ofNat i)) = .ofNat i := by decide
  have := h v.toNat hv
  rwa [UInt8.ofNat_toNat] at this

theorem low_twice (hv : v.toNat < 16) : low (twice v) = v := by
  have h : ∀ i < 16, low (twice (.ofNat i)) = .ofNat i := by decide
  have := h v.toNat hv
  rwa [UInt8.ofNat_toNat] at this

set_option maxRecDepth 4000 in
theorem high_low (x : UInt8) : high x <<< 4 ||| low x = x := by
  apply forall_byte (p := fun x => high x <<< 4 ||| low x = x)
  decide

end Digits

section Loops
variable {b s out acc rest : List UInt8} {c : UInt8} {p size : ℕ}

def digits (b : List UInt8) : List UInt8 := b.flatMap fun x => [high x, low x]

theorem digits_cons (x : UInt8) (b : List UInt8) :
    digits (x :: b) = high x :: low x :: digits b := rfl

theorem digits_length (b : List UInt8) : (digits b).length = 2 * b.length := by
  induction b with
  | nil => rfl
  | cons x b ih =>
    rw [digits_cons, List.length_cons, List.length_cons, ih, List.length_cons]
    omega

theorem digits_injective {a b : List UInt8} (h : digits a = digits b) : a = b := by
  induction a generalizing b with
  | nil =>
    cases b with
    | nil => rfl
    | cons y b => cases h
  | cons x a ih =>
    cases b with
    | nil => cases h
    | cons y b =>
      rw [digits_cons, digits_cons] at h
      obtain ⟨hhigh, h⟩ := List.cons.inj h
      obtain ⟨hlow, h⟩ := List.cons.inj h
      rw [← high_low x, ← high_low y, hhigh, hlow, ih h]

theorem digits_lt {v : UInt8} (h : v ∈ digits b) : v.toNat < 16 := by
  obtain ⟨x, -, hv⟩ := List.mem_flatMap.mp h
  simp only [List.mem_cons, List.not_mem_nil, or_false] at hv
  rcases hv with rfl | rfl
  · exact high_lt x
  · exact low_lt x

theorem hexFrom_eq (h : 2 * b.length ≤ rest.length) :
    hexFrom acc.length (acc ++ rest) b = .ok (acc.length + 2 * b.length,
      acc ++ ((digits b).map digit ++ rest.drop (2 * b.length))) := by
  induction b generalizing acc rest with
  | nil => simp [hexFrom, digits]
  | cons x b ih =>
    match rest, h with
    | y :: z :: rest, h =>
      have hb : 2 * b.length ≤ rest.length := by
        simp only [List.length_cons] at h
        omega
      have hset : ((acc ++ y :: z :: rest).set acc.length (digit (high x))).set (acc.length + 1)
          (digit (low x)) = (acc ++ [digit (high x), digit (low x)]) ++ rest := by simp
      have hlen : (acc ++ [digit (high x), digit (low x)]).length = acc.length + 2 := by simp
      have hrec : hexFrom (acc ++ [digit (high x), digit (low x)]).length _ b = _ := ih hb
      rw [hlen] at hrec
      have hhigh : i2c ((0x0F : UInt8) &&& x >>> 4) false = .ok (digit (high x)) := i2c_eq (high_lt x)
      have hlow : i2c ((0x0F : UInt8) &&& x) false = .ok (digit (low x)) := i2c_eq (low_lt x)
      rw [hexFrom, hhigh, hlow]
      show hexFrom _ (((acc ++ y :: z :: rest).set _ (digit (high x))).set _ (digit (low x))) b = _
      have hdrop : (y :: z :: rest).drop (2 * (x :: b).length) = rest.drop (2 * b.length) := rfl
      rw [hset, hrec, hdrop, digits_cons, List.length_cons, Nat.mul_add, Nat.add_assoc,
        Nat.add_comm 2]
      simp
    | [y], h =>
      simp only [List.length_cons, List.length_nil] at h
      omega
    | [], h =>
      simp only [List.length_cons, List.length_nil] at h
      omega

theorem hexstr_eq (h : 2 * b.length ≤ out.length) :
    hexstr (some b) (some out) =
      .ok (2 * b.length, some ((digits b).map digit ++ out.drop (2 * b.length))) := by
  have hguard : ¬ out.length < b.length <<< 1 := by
    rw [Nat.shiftLeft_eq]
    omega
  have hloop : hexFrom ([] : List UInt8).length ([] ++ out) b = _ := hexFrom_eq h
  rw [List.length_nil, List.nil_append, List.nil_append, Nat.zero_add] at hloop
  rw [hexstr, if_neg hguard, hloop]
  rfl

theorem c2i_of_not_isHex (h : ¬ isHex c) :
    c2i c = .error (.OutOfRange "utils::c2i - character out range") := by
  unfold isHex c2i at h
  unfold c2i
  split_ifs at h ⊢ with h0 h1 h2
  · exact absurd ⟨_, rfl⟩ h
  · exact absurd ⟨_, rfl⟩ h
  · exact absurd ⟨_, rfl⟩ h
  · rfl

/-- The value of a digit. -/
def value (c : UInt8) : UInt8 := (c2i c).toOption.getD 0

theorem c2i_of_isHex (h : isHex c) : c2i c = .ok (value c) := by
  obtain ⟨v, hv⟩ := h
  rw [value, hv]
  rfl

theorem value_lt (h : isHex c) : (value c).toNat < 16 := (digit_of_c2i (c2i_of_isHex h)).1

theorem digit_value (h : isHex c) : digit (value c) = tolower c := (digit_of_c2i (c2i_of_isHex h)).2

/-- The output buffer when `bytes` has read the first `p` characters. -/
def written (s out : List UInt8) (p : ℕ) : List UInt8 :=
  (s.take p).map (fun c => twice (value c)) ++ out.drop p

theorem set_written (hs : p < s.length) (ho : p < out.length) :
    (written s out p).set p (twice (value (s.getD p 0))) = written s out (p + 1) := by
  have hlen : ((s.take p).map fun c => twice (value c)).length = p := by
    rw [List.length_map, List.length_take]
    omega
  have hget : s.getD p 0 = s[p] := List.getD_eq_getElem _ _ hs
  have hdrop : out.drop p = out[p] :: out.drop (p + 1) := List.drop_eq_getElem_cons ho
  have htake : s.take (p + 1) = s.take p ++ [s[p]] := (List.take_append_getElem hs).symm
  rw [written, written, hget, hdrop, htake, List.map_append, List.append_assoc]
  rw [List.set_append_right _ _ (by omega), hlen, Nat.sub_self]
  rfl

theorem bytesFrom_hex (hp : p < size) (hc : isHex (s.getD p 0)) :
    bytesFrom s size p out =
      if p + 1 = 2 ^ 31 then .error .overflow
      else bytesFrom s size (p + 1) (out.set p (twice (value (s.getD p 0)))) := by
  rw [bytesFrom, if_pos hp, c2i_of_isHex hc]
  rfl

theorem bytesFrom_not_hex (hp : p < size) (hc : ¬ isHex (s.getD p 0)) :
    bytesFrom s size p out = .error (.OutOfRange "utils::c2i - character out range") := by
  rw [bytesFrom, if_pos hp, c2i_of_not_isHex hc]
  rfl

/-- The loop reads digits as long as it finds them. -/
theorem bytesFrom_run (hs : size ≤ s.length) (ho : size ≤ out.length) (hp : p ≤ size)
    (hlt : p < 2 ^ 31) (hc : ∀ i < p, isHex (s.getD i 0)) :
    bytesFrom s size 0 out = bytesFrom s size p (written s out p) := by
  induction p with
  | zero => simp [written]
  | succ p ih =>
    have hrec := ih (by omega) (by omega) fun i hi => hc i (by omega)
    have hne : p + 1 ≠ 2 ^ 31 := by omega
    rw [hrec, bytesFrom_hex (by omega) (hc p (by omega)), if_neg hne,
      set_written (by omega) (by omega)]

theorem bytes_eq (ho : s.length / 2 ≤ out.length) :
    bytes s (some out) = bytesFrom s (s.length / 2) 0 out := by
  have hguard : ¬ out.length < s.length / 2 := Nat.not_lt.mpr ho
  rw [bytes, Nat.shiftRight_eq_div_pow, Nat.pow_one]
  exact if_neg hguard

theorem bytes_hex (ho : s.length / 2 ≤ out.length) (hlt : s.length / 2 < 2 ^ 31)
    (hc : ∀ i < s.length / 2, isHex (s.getD i 0)) :
    bytes s (some out) = .ok (written s out (s.length / 2)) := by
  rw [bytes_eq ho, bytesFrom_run (by omega) ho (Nat.le_refl _) hlt hc, bytesFrom,
    if_neg (Nat.lt_irrefl _)]

theorem bytes_overflow (ho : s.length / 2 ≤ out.length) (hle : 2 ^ 31 ≤ s.length / 2)
    (hc : ∀ i < 2 ^ 31, isHex (s.getD i 0)) : bytes s (some out) = .error .overflow := by
  have hlast : isHex (s.getD (2 ^ 31 - 1) 0) := hc (2 ^ 31 - 1) (by omega)
  rw [bytes_eq ho, bytesFrom_run (p := 2 ^ 31 - 1) (by omega) ho (by omega) (by omega)
    fun i hi => hc i (by omega), bytesFrom_hex (by omega) hlast, if_pos (by omega)]

theorem bytes_not_hex (ho : s.length / 2 ≤ out.length) (hp : p < s.length / 2) (hlt : p < 2 ^ 31)
    (hc : ∀ i < p, isHex (s.getD i 0)) (hn : ¬ isHex (s.getD p 0)) :
    bytes s (some out) = .error (.OutOfRange "utils::c2i - character out range") := by
  rw [bytes_eq ho, bytesFrom_run (p := p) (by omega) ho (by omega) hlt hc, bytesFrom_not_hex hp hn]

/-- The first character that is read and is no digit is the one that `bytes` throws at. -/
theorem bytes_throws_iff (ho : s.length / 2 ≤ out.length) :
    (∃ m, bytes s (some out) = .error (.OutOfRange m)) ↔
      ∃ p < s.length / 2, p < 2 ^ 31 ∧ ¬ isHex (s.getD p 0) := by
  classical
  constructor
  · rintro ⟨m, hm⟩
    by_contra hall
    push Not at hall
    by_cases hlt : s.length / 2 < 2 ^ 31
    · rw [bytes_hex ho hlt fun i hi => hall i hi (by omega)] at hm
      cases hm
    · rw [bytes_overflow ho (by omega) fun i hi => hall i (by omega) hi] at hm
      cases hm
  · intro h
    obtain ⟨hp, hlt, hn⟩ := Nat.find_spec h
    have hc : ∀ i < Nat.find h, isHex (s.getD i 0) := by
      intro i hi
      by_contra hnot
      exact Nat.find_min h hi ⟨by omega, by omega, hnot⟩
    exact ⟨_, bytes_not_hex ho hp hlt hc hn⟩

end Loops

section Twice
variable {l : List UInt8} {v : UInt8} {n : ℕ}

def double (l : List UInt8) : List UInt8 := l.flatMap fun v => [v, v]

theorem getElem?_double (l : List UInt8) (j : ℕ) : (double l)[j]? = l[j / 2]? := by
  induction l generalizing j with
  | nil => rfl
  | cons v l ih =>
    match j with
    | 0 => rfl
    | 1 => rfl
    | j + 2 =>
      have hhalf : (j + 2) / 2 = j / 2 + 1 := by omega
      rw [hhalf, List.getElem?_cons_succ, ← ih]
      rfl

/-- When each of the first half stands for two, all are the first. -/
theorem double_take_iff (hl : l.length = 2 * n) :
    double (l.take n) = l ↔ ∃ v, ∀ x ∈ l, x = v := by
  constructor
  · intro h
    have hhalf : ∀ j < 2 * n, l[j]? = l[j / 2]? := by
      intro j hj
      have htake : (l.take n)[j / 2]? = l[j / 2]? := List.getElem?_take_of_lt (by omega)
      rw [← htake, ← getElem?_double, h]
    have hfirst : ∀ j < 2 * n, l[j]? = l[0]? := by
      intro j
      induction j using Nat.strong_induction_on with
      | _ j ih =>
        intro hj
        by_cases hz : j = 0
        · rw [hz]
        · rw [hhalf j hj]
          exact ih (j / 2) (by omega) (by omega)
    refine ⟨l.getD 0 0, fun x hx => ?_⟩
    obtain ⟨j, hj, rfl⟩ := List.mem_iff_getElem.mp hx
    have heq := hfirst j (by omega)
    rw [List.getElem?_eq_getElem hj] at heq
    rw [List.getD_eq_getElem?_getD, ← heq]
    rfl
  · rintro ⟨v, hv⟩
    have hrep : l = List.replicate (2 * n) v := List.eq_replicate_iff.mpr ⟨hl, hv⟩
    apply List.ext_getElem?
    intro j
    rw [getElem?_double, hrep, List.take_replicate, List.getElem?_replicate,
      List.getElem?_replicate]
    have hmin : min n (2 * n) = n := by omega
    rw [hmin]
    by_cases hj : j < 2 * n
    · rw [if_pos hj, if_pos (by omega)]
    · rw [if_neg hj, if_neg (by omega)]

theorem digits_twice (h : ∀ v ∈ l, v.toNat < 16) : digits (l.map twice) = double l := by
  induction l with
  | nil => rfl
  | cons v l ih =>
    have hv : v.toNat < 16 := h v List.mem_cons_self
    rw [List.map_cons, digits_cons, high_twice hv, low_twice hv,
      ih fun w hw => h w (List.mem_cons_of_mem v hw)]
    rfl

end Twice

/-- `bytes` gives back what `hexstr` has written for `b`. -/
def Decodes (b : List UInt8) : Prop :=
  ∀ out back, 2 * b.length ≤ out.length → b.length ≤ back.length → ∃ s, s.length = 2 * b.length ∧
    hexstr (some b) (some out) = .ok (2 * b.length, some (s ++ out.drop (2 * b.length))) ∧
    bytes s (some back) = .ok (b ++ back.drop b.length)

/-- `hexstr` gives back, in lower case, what `bytes` has read from `s`. -/
def Encodes (s : List UInt8) : Prop :=
  ∀ out back, s.length / 2 ≤ out.length → s.length ≤ back.length → ∃ b, b.length = s.length / 2 ∧
    bytes s (some out) = .ok (b ++ out.drop (s.length / 2)) ∧
    hexstr (some b) (some back) = .ok (s.length, some (s.map tolower ++ back.drop s.length))

/-- `bytes` throws at `s`. -/
def Refuses (s : List UInt8) : Prop :=
  ∀ out, s.length / 2 ≤ out.length → ∃ m, bytes s (some out) = .error (.OutOfRange m)

section RoundTrip
variable {b s : List UInt8}

theorem isHex_digits (b : List UInt8) : ∀ c ∈ (digits b).map digit, isHex c := by
  intro c hc
  obtain ⟨v, hv, rfl⟩ := List.mem_map.mp hc
  exact ⟨v, c2i_digit (digits_lt hv)⟩

theorem map_value_digit {l : List UInt8} (hl : ∀ v ∈ l, v.toNat < 16) :
    (l.map digit).map value = l := by
  induction l with
  | nil => rfl
  | cons v l ih =>
    have hv : value (digit v) = v := by
      rw [value, c2i_digit (hl v List.mem_cons_self)]
      rfl
    rw [List.map_cons, List.map_cons, hv, ih fun w hw => hl w (List.mem_cons_of_mem v hw)]

theorem map_digit_inj {l m : List UInt8} (hl : ∀ v ∈ l, v.toNat < 16) (hm : ∀ v ∈ m, v.toNat < 16)
    (h : l.map digit = m.map digit) : l = m := by
  rw [← map_value_digit hl, ← map_value_digit hm, h]

theorem isHex_getD (hc : ∀ c ∈ s, isHex c) {i : ℕ} (hi : i < s.length) : isHex (s.getD i 0) := by
  rw [List.getD_eq_getElem _ _ hi]
  exact hc _ (List.getElem_mem hi)

theorem written_eq (s out : List UInt8) (p : ℕ) :
    written s out p = ((s.map value).take p).map twice ++ out.drop p := by
  rw [written, ← List.map_take, List.map_map]
  rfl

theorem bytes_digits {back : List UInt8} (h : b.length ≤ back.length) (hlt : b.length < 2 ^ 31) :
    bytes ((digits b).map digit) (some back) =
      .ok (((digits b).take b.length).map twice ++ back.drop b.length) := by
  have hhalf : ((digits b).map digit).length / 2 = b.length := by
    rw [List.length_map, digits_length]
    omega
  rw [bytes_hex (by omega) (by omega) fun i hi => isHex_getD (isHex_digits b) (by omega),
    written_eq, map_value_digit fun v hv => digits_lt hv, hhalf]

theorem decodes_iff_take :
    Decodes b ↔ b.length < 2 ^ 31 ∧ ((digits b).take b.length).map twice = b := by
  have hlen : ((digits b).map digit).length = 2 * b.length := by
    rw [List.length_map, digits_length]
  constructor
  · intro h
    obtain ⟨s, hs, henc, hdec⟩ := h (List.replicate (2 * b.length) 0) (List.replicate b.length 0)
      (by rw [List.length_replicate]) (by rw [List.length_replicate])
    rw [hexstr_eq (by rw [List.length_replicate])] at henc
    have hpair := Except.ok.inj henc
    have heq : (digits b).map digit = s :=
      List.append_cancel_right (Option.some.inj (Prod.mk.inj hpair).2)
    rw [← heq] at hdec
    by_cases hlt : b.length < 2 ^ 31
    · rw [bytes_digits (by rw [List.length_replicate]) hlt] at hdec
      exact ⟨hlt, List.append_cancel_right (Except.ok.inj hdec)⟩
    · have hover : bytes ((digits b).map digit) (some (List.replicate b.length 0)) =
          .error .overflow := by
        apply bytes_overflow
        · rw [List.length_replicate]
          omega
        · omega
        · exact fun i hi => isHex_getD (isHex_digits b) (by omega)
      rw [hover] at hdec
      cases hdec
  · rintro ⟨hlt, htake⟩ out back hout hback
    refine ⟨(digits b).map digit, hlen, hexstr_eq hout, ?_⟩
    rw [bytes_digits hback hlt, htake]

theorem decodes_iff (b : List UInt8) :
    Decodes b ↔ b.length < 2 ^ 31 ∧ ∃ v, ∀ x ∈ b, high x = v ∧ low x = v := by
  have hlt : ∀ v ∈ (digits b).take b.length, v.toNat < 16 := fun v hv =>
    digits_lt (List.mem_of_mem_take hv)
  have htake : ((digits b).take b.length).map twice = b ↔
      double ((digits b).take b.length) = digits b := by
    rw [← digits_twice hlt]
    exact ⟨fun h => congrArg digits h, fun h => digits_injective h⟩
  have hall : (∃ v, ∀ x ∈ digits b, x = v) ↔ ∃ v, ∀ x ∈ b, high x = v ∧ low x = v := by
    apply exists_congr
    intro v
    constructor
    · intro h x hx
      have hmem : ∀ w ∈ [high x, low x], w ∈ digits b := fun w hw =>
        List.mem_flatMap.mpr ⟨x, hx, hw⟩
      exact ⟨h _ (hmem _ (by simp)), h _ (hmem _ (by simp))⟩
    · intro h w hw
      obtain ⟨x, hx, hw⟩ := List.mem_flatMap.mp hw
      simp only [List.mem_cons, List.not_mem_nil, or_false] at hw
      rcases hw with rfl | rfl
      · exact (h x hx).1
      · exact (h x hx).2
  rw [decodes_iff_take, htake, double_take_iff (digits_length b), hall]

theorem map_lower (hc : ∀ c ∈ s, isHex c) : s.map tolower = (s.map value).map digit := by
  rw [List.map_map]
  exact List.map_congr_left fun c hm => (digit_value (hc c hm)).symm

theorem values_lt (hc : ∀ c ∈ s, isHex c) : ∀ v ∈ s.map value, v.toNat < 16 := by
  intro v hv
  obtain ⟨c, hm, rfl⟩ := List.mem_map.mp hv
  exact value_lt (hc c hm)

theorem encodes_iff_double (heven : Even s.length) (hc : ∀ c ∈ s, isHex c) :
    Encodes s ↔ s.length / 2 < 2 ^ 31 ∧
      double ((s.map value).take (s.length / 2)) = s.map value := by
  have htwo : 2 * (s.length / 2) = s.length := Nat.two_mul_div_two_of_even heven
  have hlt : ∀ v ∈ (s.map value).take (s.length / 2), v.toNat < 16 := fun v hv =>
    values_lt hc v (List.mem_of_mem_take hv)
  have hdigits := digits_twice hlt
  have hlen : (((s.map value).take (s.length / 2)).map twice).length = s.length / 2 := by
    rw [List.length_map, List.length_take, List.length_map]
    omega
  have hread : ∀ i < s.length / 2, isHex (s.getD i 0) := fun i hi => isHex_getD hc (by omega)
  constructor
  · intro h
    obtain ⟨b, hb, hdec, henc⟩ := h (List.replicate s.length 0) (List.replicate s.length 0)
      (by rw [List.length_replicate]; omega) (by rw [List.length_replicate])
    have hlt31 : s.length / 2 < 2 ^ 31 := by
      by_contra hle
      rw [bytes_overflow (by rw [List.length_replicate]; omega) (by omega)
        fun i hi => hread i (by omega)] at hdec
      cases hdec
    rw [bytes_hex (by rw [List.length_replicate]; omega) hlt31 hread, written_eq] at hdec
    have hbeq : ((s.map value).take (s.length / 2)).map twice = b :=
      List.append_cancel_right (Except.ok.inj hdec)
    rw [hexstr_eq (by rw [List.length_replicate]; omega), ← hbeq, hlen, hdigits, htwo] at henc
    have heq := List.append_cancel_right (Option.some.inj (Prod.mk.inj (Except.ok.inj henc)).2)
    rw [map_lower hc, ← hdigits] at heq
    refine ⟨hlt31, ?_⟩
    rw [← hdigits]
    exact map_digit_inj (fun v hv => digits_lt hv) (values_lt hc) heq
  · rintro ⟨hlt31, hdouble⟩ out back hout hback
    refine ⟨((s.map value).take (s.length / 2)).map twice, hlen, ?_, ?_⟩
    · rw [bytes_hex hout hlt31 hread, written_eq]
    · rw [hexstr_eq (by omega), hlen, hdigits, hdouble, htwo, map_lower hc]

theorem encodes_iff (heven : Even s.length) (hc : ∀ c ∈ s, isHex c) :
    Encodes s ↔ s.length / 2 < 2 ^ 31 ∧ ∃ v, ∀ c ∈ s, c2i c = .ok v := by
  have hlen : (s.map value).length = 2 * (s.length / 2) := by
    rw [List.length_map, Nat.two_mul_div_two_of_even heven]
  have hall : (∃ v, ∀ x ∈ s.map value, x = v) ↔ ∃ v, ∀ c ∈ s, c2i c = .ok v := by
    apply exists_congr
    intro v
    constructor
    · intro h c hm
      rw [c2i_of_isHex (hc c hm), h _ (List.mem_map_of_mem hm)]
    · intro h x hx
      obtain ⟨c, hm, rfl⟩ := List.mem_map.mp hx
      rw [value, h c hm]
      rfl
  rw [encodes_iff_double heven hc, double_take_iff hlen, hall]

theorem refuses_iff (s : List UInt8) :
    Refuses s ↔ ∃ p < s.length / 2, p < 2 ^ 31 ∧ ¬ isHex (s.getD p 0) := by
  constructor
  · intro h
    have hout : s.length / 2 ≤ (List.replicate (s.length / 2) (0 : UInt8)).length := by
      rw [List.length_replicate]
    exact (bytes_throws_iff hout).mp (h _ hout)
  · exact fun h out hout => (bytes_throws_iff hout).mpr h

end RoundTrip

/-- `bytes` reads every digit for both halves of a byte, and only the first half of the string. -/
theorem hex_round_trip_iff (b s : List UInt8) :
    (Decodes b ↔ b.length < 2 ^ 31 ∧ ∃ v, ∀ x ∈ b, high x = v ∧ low x = v) ∧
    (Even s.length → (∀ c ∈ s, isHex c) →
      (Encodes s ↔ s.length / 2 < 2 ^ 31 ∧ ∃ v, ∀ c ∈ s, c2i c = .ok v)) ∧
    (Even s.length → (∃ c ∈ s, ¬ isHex c) →
      (Refuses s ↔ ∃ p < s.length / 2, p < 2 ^ 31 ∧ ¬ isHex (s.getD p 0))) :=
  ⟨decodes_iff b, fun heven hc => encodes_iff heven hc, fun _ _ => refuses_iff s⟩

/-- `0x1f` is written as "1f", which is read as `0x11`. -/
theorem hex_round_trip_fails :
    ¬ ((∀ b, Decodes b) ∧ (∀ s, Even s.length → (∀ c ∈ s, isHex c) → Encodes s) ∧
      ∀ s, Even s.length → (∃ c ∈ s, ¬ isHex c) → Refuses s) := by
  intro h
  obtain ⟨-, v, hv⟩ := (decodes_iff [0x1f]).mp (h.1 [0x1f])
  obtain ⟨hhigh, hlow⟩ := hv 0x1f List.mem_cons_self
  exact absurd (hhigh.trans hlow.symm) (by decide)

end Suil.Utils.Hex
