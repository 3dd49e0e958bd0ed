import Suil.Lib.Narrow
import Suil.Utils.Hex

/-! `suil::URL`, and the percent-encoding that its encoder is compared with. The stream appends
every byte that is put, and `isalnum` is the one of the C locale. -/
namespace Suil.Utils.Url

open Hex (forall_byte)
open Narrow (int)

def isalnum (c : UInt8) : Bool :=
  '0'.toUInt8 ≤ c ∧ c ≤ '9'.toUInt8 ∨ 'A'.toUInt8 ≤ c ∧ c ≤ 'Z'.toUInt8 ∨
    'a'.toUInt8 ≤ c ∧ c ≤ 'z'.toUInt8

/-- The NUL that ends the string is one of its characters. -/
def strchr (s : List Char) (c : UInt8) : Bool := c ∈ s.map Char.toUInt8 ++ [0]

def HexChars : List UInt8 :=
  ['0', '1', '2', '3', '4', '5', '6', '7', '8', '9', 'A', 'B', 'C', 'D', 'E', 'F'].map Char.toUInt8

/-- `HexChars[i]`; the array ends with a NUL. -/
def hexChar (i : UInt8) : UInt8 := HexChars.getD i.toNat 0

def encodeByte (c : UInt8) : List UInt8 :=
  if ¬ isalnum c ∧ ¬ strchr ['-', '_', '.', '~'] c then
    ['%'.toUInt8, hexChar ((c &&& 0xF0) >>> 4), hexChar (c &&& 0x0F)]
  else [c]

def encode : List UInt8 → List UInt8
  | [] => []
  | c :: src => encodeByte c ++ encode src

def IS_HEX_CHAR (ch : UInt8) : Bool :=
  '0'.toUInt8 ≤ ch ∧ ch ≤ '9'.toUInt8 ∨ 'a'.toUInt8 ≤ ch ∧ ch ≤ 'f'.toUInt8 ∨
    'A'.toUInt8 ≤ ch ∧ ch ≤ 'F'.toUInt8

def HEX_VALUE (ch : UInt8) : UInt8 :=
  if '0'.toUInt8 ≤ ch ∧ ch ≤ '9'.toUInt8 then ch - '0'.toUInt8
  else if 'a'.toUInt8 ≤ ch ∧ ch ≤ 'f'.toUInt8 then ch - 'a'.toUInt8 + 10
  else ch - 'A'.toUInt8 + 10

/-- What is put for a byte that begins no escape. -/
def plain (c : UInt8) : UInt8 := if c = '+'.toUInt8 then ' '.toUInt8 else c

def URLDecode : List UInt8 → List UInt8
  | c :: high :: low :: src =>
    if c = '%'.toUInt8 then
      if IS_HEX_CHAR high ∧ IS_HEX_CHAR low then
        (HEX_VALUE high <<< 4 ||| HEX_VALUE low) :: URLDecode src
      else c :: URLDecode (high :: low :: src)
    else plain c :: URLDecode (high :: low :: src)
  | c :: src => plain c :: URLDecode src
  | [] => []

/-- A negative `int(len)` puts the end before the start. -/
def decode (data : List UInt8) : List UInt8 := URLDecode (data.take (int data.length).toNat)

section RoundTrip
variable {c : UInt8}

theorem URLDecode_plain (hc : c ≠ '%'.toUInt8) (src : List UInt8) :
    URLDecode (c :: src) = plain c :: URLDecode src := by
  match src with
  | [] => rw [URLDecode]; exact nofun
  | [x] => rw [URLDecode]; exact nofun
  | x :: y :: src => rw [URLDecode, if_neg hc]

theorem URLDecode_escape {high low : UInt8} (hh : IS_HEX_CHAR high) (hl : IS_HEX_CHAR low)
    (src : List UInt8) :
    URLDecode ('%'.toUInt8 :: high :: low :: src) =
      (HEX_VALUE high <<< 4 ||| HEX_VALUE low) :: URLDecode src := by
  rw [URLDecode, if_pos rfl, if_pos ⟨hh, hl⟩]

set_option maxRecDepth 4000 in
/-- A byte that stands for itself is neither `'%'` nor `'+'`. -/
theorem plain_of_kept (c : UInt8) :
    isalnum c ∨ strchr ['-', '_', '.', '~'] c → c ≠ '%'.toUInt8 ∧ plain c = c := by
  apply forall_byte (p := fun c => isalnum c ∨ strchr ['-', '_', '.', '~'] c →
    c ≠ '%'.toUInt8 ∧ plain c = c)
  decide

set_option maxRecDepth 4000 in
theorem hexChar_high (c : UInt8) : IS_HEX_CHAR (hexChar ((c &&& 0xF0) >>> 4)) := by
  apply forall_byte (p := fun c => IS_HEX_CHAR (hexChar ((c &&& 0xF0) >>> 4)))
  decide

set_option maxRecDepth 4000 in
theorem hexChar_low (c : UInt8) : IS_HEX_CHAR (hexChar (c &&& 0x0F)) := by
  apply forall_byte (p := fun c => IS_HEX_CHAR (hexChar (c &&& 0x0F)))
  decide

set_option maxRecDepth 4000 in
theorem value_hexChar (c : UInt8) :
    HEX_VALUE (hexChar ((c &&& 0xF0) >>> 4)) <<< 4 ||| HEX_VALUE (hexChar (c &&& 0x0F)) = c := by
  apply forall_byte (p := fun c =>
    HEX_VALUE (hexChar ((c &&& 0xF0) >>> 4)) <<< 4 ||| HEX_VALUE (hexChar (c &&& 0x0F)) = c)
  decide

/-- What is written for one byte is read as that byte, whatever follows. -/
theorem URLDecode_encodeByte (c : UInt8) (src : List UInt8) :
    URLDecode (encodeByte c ++ src) = c :: URLDecode src := by
  unfold encodeByte
  by_cases hkept : isalnum c ∨ strchr ['-', '_', '.', '~'] c
  · obtain ⟨hne, hplain⟩ := plain_of_kept c hkept
    have hnot : ¬ (¬ isalnum c ∧ ¬ strchr ['-', '_', '.', '~'] c) := fun h => hkept.elim h.1 h.2
    rw [if_neg hnot, List.singleton_append, URLDecode_plain hne, hplain]
  · obtain ⟨halnum, hchr⟩ := not_or.mp hkept
    rw [if_pos ⟨halnum, hchr⟩]
    have h := URLDecode_escape (hexChar_high c) (hexChar_low c) src
    rwa [value_hexChar] at h

theorem URLDecode_encode (bs : List UInt8) : URLDecode (encode bs) = bs := by
  induction bs with
  | nil => rfl
  | cons c bs ih => rw [encode, URLDecode_encodeByte, ih]

end RoundTrip

theorem decode_encode (bs : List UInt8) (h : (encode bs).length < 2 ^ 31) :
    decode (encode bs) = bs := by
  rw [decode, Narrow.int_natCast_eq_iff.mpr h, Int.toNat_natCast, List.take_length,
    URLDecode_encode]

theorem decode_encode_bytes : decode (encode [0, 37, 43, 32, 97, 255]) = [0, 37, 43, 32, 97, 255] :=
  decode_encode [0, 37, 43, 32, 97, 255] (by decide)

/-- The bytes that stand for themselves. -/
def Unreserved (c : UInt8) : Prop :=
  'A'.toUInt8 ≤ c ∧ c ≤ 'Z'.toUInt8 ∨ 'a'.toUInt8 ≤ c ∧ c ≤ 'z'.toUInt8 ∨
    '0'.toUInt8 ≤ c ∧ c ≤ '9'.toUInt8 ∨ c = '-'.toUInt8 ∨ c = '_'.toUInt8 ∨ c = '.'.toUInt8 ∨
    c = '~'.toUInt8

instance : DecidablePred Unreserved := fun c => by unfold Unreserved; infer_instance

/-- The upper-case digit of a number below 16. -/
def upperDigit (n : ℕ) : UInt8 :=
  if n < 10 then '0'.toUInt8 + UInt8.ofNat n else 'A'.toUInt8 + UInt8.ofNat (n - 10)

def escape (c : UInt8) : List UInt8 :=
  ['%'.toUInt8, upperDigit (c.toNat / 16), upperDigit (c.toNat % 16)]

def percentByte (c : UInt8) : List UInt8 := if Unreserved c then [c] else escape c

/-- The percent-encoding of a byte string. -/
def percentEncode (bs : List UInt8) : List UInt8 := bs.flatMap percentByte

/-- A text in which every `'%'` begins an escape and every other byte stands for itself. -/
inductive Escaped : List UInt8 → Prop
  | nil : Escaped []
  | plain {c out} : Unreserved c → Escaped out → Escaped (c :: out)
  | escape {out} (c : UInt8) : Escaped out → Escaped (escape c ++ out)

/-- What `encode` makes of `bs` is the percent-encoding, and safe. -/
structure Safe (bs : List UInt8) : Prop where
  eq : encode bs = percentEncode bs
  escaped : Escaped (encode bs)
  printable : ∀ c ∈ encode bs, 0x20 < c ∧ c < 0x7F

section Safe
variable {c : UInt8} {bs : List UInt8}

set_option maxRecDepth 4000 in
/-- `strchr` takes the NUL for one of the marks. -/
theorem kept_iff (c : UInt8) :
    isalnum c ∨ strchr ['-', '_', '.', '~'] c ↔ Unreserved c ∨ c = 0 := by
  apply forall_byte (p := fun c => isalnum c ∨ strchr ['-', '_', '.', '~'] c ↔ Unreserved c ∨ c = 0)
  decide

set_option maxRecDepth 4000 in
theorem hexChar_eq (c : UInt8) : hexChar ((c &&& 0xF0) >>> 4) = upperDigit (c.toNat / 16) ∧
    hexChar (c &&& 0x0F) = upperDigit (c.toNat % 16) := by
  apply forall_byte (p := fun c => hexChar ((c &&& 0xF0) >>> 4) = upperDigit (c.toNat / 16) ∧
    hexChar (c &&& 0x0F) = upperDigit (c.toNat % 16))
  decide

theorem encodeByte_eq (hc : c ≠ 0) : encodeByte c = percentByte c := by
  obtain ⟨hhigh, hlow⟩ := hexChar_eq c
  have hkept := kept_iff c
  unfold encodeByte percentByte
  by_cases hu : Unreserved c
  · have hnot : ¬ (¬ isalnum c ∧ ¬ strchr ['-', '_', '.', '~'] c) :=
      fun h => (hkept.mpr (.inl hu)).elim h.1 h.2
    rw [if_neg hnot, if_pos hu]
  · have hescape : ¬ isalnum c ∧ ¬ strchr ['-', '_', '.', '~'] c := by
      rw [← not_or, hkept]
      exact not_or.mpr ⟨hu, hc⟩
    rw [if_pos hescape, if_neg hu, hhigh, hlow]
    rfl

set_option maxRecDepth 4000 in
theorem unreserved_printable (c : UInt8) : Unreserved c → 0x20 < c ∧ c < 0x7F := by
  apply forall_byte (p := fun c => Unreserved c → 0x20 < c ∧ c < 0x7F)
  decide

theorem upperDigit_printable : ∀ n < 16, 0x20 < upperDigit n ∧ upperDigit n < 0x7F := by
  decide

theorem percentByte_printable (c : UInt8) : ∀ d ∈ percentByte c, 0x20 < d ∧ d < 0x7F := by
  have hc := c.toNat_lt
  unfold percentByte
  split_ifs with hu
  · intro d hd
    rw [List.mem_singleton.mp hd]
    exact unreserved_printable c hu
  · intro d hd
    simp only [escape, List.mem_cons, List.not_mem_nil, or_false] at hd
    rcases hd with hd | hd | hd
    · rw [hd]
      decide
    · rw [hd]
      exact upperDigit_printable _ (by omega)
    · rw [hd]
      exact upperDigit_printable _ (by omega)

theorem escaped_percentByte (c : UInt8) {out : List UInt8} (h : Escaped out) :
    Escaped (percentByte c ++ out) := by
  unfold percentByte
  split_ifs with hc
  · exact .plain hc h
  · exact .escape c h

theorem escaped_percentEncode (bs : List UInt8) : Escaped (percentEncode bs) := by
  induction bs with
  | nil => exact .nil
  | cons c bs ih =>
    unfold percentEncode at ih ⊢
    rw [List.flatMap_cons]
    exact escaped_percentByte c ih

theorem encode_eq (h : 0 ∉ bs) : encode bs = percentEncode bs := by
  induction bs with
  | nil => rfl
  | cons c bs ih =>
    obtain ⟨hc, hbs⟩ := not_or.mp (List.mem_cons.not.mp h)
    have hrest : encode bs = percentEncode bs := ih hbs
    rw [encode, hrest, encodeByte_eq (Ne.symm hc)]
    rfl

theorem nul_mem_encode (h : 0 ∈ bs) : 0 ∈ encode bs := by
  induction bs with
  | nil => exact absurd h List.not_mem_nil
  | cons c bs ih =>
    rw [encode, List.mem_append]
    rcases List.mem_cons.mp h with hc | hbs
    · left
      rw [← hc]
      decide
    · right
      exact ih hbs

theorem safe_of_no_nul (h : 0 ∉ bs) : Safe bs := by
  have heq := encode_eq h
  constructor
  · exact heq
  · rw [heq]
    exact escaped_percentEncode bs
  · intro d hd
    rw [heq] at hd
    obtain ⟨c, -, hdc⟩ := List.mem_flatMap.mp hd
    exact percentByte_printable c d hdc

theorem not_safe_of_nul (h : 0 ∈ bs) : ¬ Safe bs := by
  intro hsafe
  have hnul := hsafe.printable 0 (nul_mem_encode h)
  exact absurd hnul.1 (by decide)

end Safe

/-- The output is safe exactly when there is no NUL in the input; it is always injective. -/
theorem encode_safe_iff (bs : List UInt8) :
    (Safe bs ↔ 0 ∉ bs) ∧ Function.Injective encode := by
  constructor
  · constructor
    · intro hsafe h
      exact not_safe_of_nul h hsafe
    · exact safe_of_no_nul
  · apply Function.LeftInverse.injective (g := URLDecode)
    exact URLDecode_encode

/-- A NUL is put as it is. -/
theorem not_safe_nul : ¬ ((∀ bs, Safe bs) ∧ Function.Injective encode) :=
  fun h => not_safe_of_nul List.mem_cons_self (h.1 [0])

end Suil.Utils.Url
