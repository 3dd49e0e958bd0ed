import Suil.Utils.Split
import Suil.Utils.Url

/-! `suil::Uuid`. The functions of libuuid are given, and what is documented of them is assumed
where it is used. -/
namespace Suil.Utils

open CText (Str)
open Text (View cstr)

/-- A `uuid_t`. -/
structure Uuid.Bin where
  bytes : Str
  size : bytes.length = 16
  deriving DecidableEq

/-- `_bin`. -/
structure Uuid where
  bin : Uuid.Bin

namespace Uuid

/-- The null value, and what `_bin` is at first. -/
def null : Bin := ⟨List.replicate 16 0, rfl⟩

/-- What `Uuid` calls. A function that fills a `uuid_t` takes what is there and returns what it
leaves there, with its code if it has one. -/
structure Libuuid where
  uuid_copy : Bin → Bin → Bin
  uuid_clear : Bin → Bin
  uuid_parse : Str → Bin → ℤ × Bin
  uuid_generate_time_safe : Bin → ℤ × Bin
  uuid_unparse_lower : Bin → Str
  uuid_unparse_upper : Bin → Str
  uuid_compare : Bin → Bin → ℤ
  uuid_is_null : Bin → ℤ

/-- What a text is written as by `uuid_unparse`. -/
def Libuuid.unparse (lib : Libuuid) (lower : Bool) : Bin → Str :=
  if lower then lib.uuid_unparse_lower else lib.uuid_unparse_upper

/-- The documentation, where `meaning` is the value of a valid text. -/
structure Documented (lib : Libuuid) (meaning : Str → Option Bin) : Prop where
  copy : ∀ dst src, lib.uuid_copy dst src = src
  clear : ∀ out, lib.uuid_clear out = null
  valid : ∀ {s b}, meaning s = some b → ∀ out, lib.uuid_parse s out = (0, b)
  invalid : ∀ {s}, meaning s = none → ∀ out,
    (lib.uuid_parse s out).1 ≠ 0 ∧ (lib.uuid_parse s out).2 = out
  unparse : ∀ lower b, meaning (lib.unparse lower b) = some b
  length : ∀ lower b, (lib.unparse lower b).length = 36
  nul : ∀ lower b, 0 ∉ lib.unparse lower b
  compare : ∀ a b, lib.uuid_compare a b = 0 ↔ a = b
  is_null : ∀ a, lib.uuid_is_null a ≠ 0 ↔ a = null

section Class
variable (lib : Libuuid)

/-- The constructor from 16 bytes. -/
def ofBytes (val : Bin) : Uuid := ⟨lib.uuid_copy null val⟩

/-- The constructor from a string. -/
def ofString (str : View) : Uuid :=
  if str.text = [] then
    let (code, out) := lib.uuid_generate_time_safe null
    if code = 0 then ⟨lib.uuid_clear out⟩ else ⟨out⟩
  else
    let (code, out) := lib.uuid_parse (cstr str.data 0) null
    if code = 0 then ⟨lib.uuid_clear out⟩ else ⟨out⟩

/-- The text is written over the 36 bytes of the string. -/
def toString (u : Uuid) (lower : Bool) : Str :=
  lib.unparse lower u.bin ++ (List.replicate 36 0).drop (lib.unparse lower u.bin).length

def equals (u other : Uuid) : Bool := lib.uuid_compare u.bin other.bin = 0

def empty (u : Uuid) : Bool := lib.uuid_is_null u.bin ≠ 0

/-- The text of `b` is read as `b`, whatever the memory has behind it. -/
def RoundTrip (b : Bin) (lower : Bool) : Prop :=
  ∀ beyond,
    equals lib (ofString lib ⟨toString lib (ofBytes lib b) lower, 0 :: beyond⟩) (ofBytes lib b)

/-- What cannot be parsed gives the null value. -/
def RejectsEmpty : Prop :=
  ∀ str : View, str.text ≠ [] → (lib.uuid_parse (cstr str.data 0) null).1 ≠ 0 →
    empty lib (ofString lib str)

end Class

section Laws
variable {lib : Libuuid} {meaning : Str → Option Bin} {b : Bin} {lower : Bool}

theorem ofBytes_eq (h : Documented lib meaning) : ofBytes lib b = ⟨b⟩ := by
  rw [ofBytes, h.copy]

theorem toString_eq (h : Documented lib meaning) :
    toString lib (ofBytes lib b) lower = lib.unparse lower b := by
  rw [toString, ofBytes_eq h, h.length]
  exact List.append_nil _

theorem cstr_text {s beyond : Str} (h : 0 ∉ s) : cstr (s ++ 0 :: beyond) 0 = s :=
  Text.cstr_view (x := ⟨s, h⟩) (Nat.zero_le _)

/-- A text that is accepted is cleared. -/
theorem ofString_text (h : Documented lib meaning) (beyond : Str) :
    ofString lib ⟨toString lib (ofBytes lib b) lower, 0 :: beyond⟩ = ⟨null⟩ := by
  have hne : lib.unparse lower b ≠ [] := by
    intro hnil
    have hlen := h.length lower b
    rw [hnil] at hlen
    cases hlen
  have hparse := h.valid (h.unparse lower b) null
  rw [toString_eq h]
  unfold ofString View.data
  rw [if_neg hne, cstr_text (h.nul lower b), hparse]
  exact (if_pos rfl).trans (congrArg mk (h.clear b))

theorem rejectsEmpty (h : Documented lib meaning) : RejectsEmpty lib := by
  intro str htext hcode
  have hnull : ofString lib str = ⟨null⟩ := by
    cases hmeaning : meaning (cstr str.data 0) with
    | some b =>
      rw [h.valid hmeaning] at hcode
      exact absurd rfl hcode
    | none =>
      have hout := (h.invalid hmeaning null).2
      unfold ofString
      rw [if_neg htext]
      exact (if_neg hcode).trans (congrArg mk hout)
  rw [hnull]
  apply decide_eq_true
  exact (h.is_null null).mpr rfl

end Laws

/-- The two `if`s have the success code the wrong way round: only the null value survives. -/
theorem roundTrip_iff (lib : Libuuid) (meaning : Str → Option Bin) (h : Documented lib meaning)
    (b : Bin) (lower : Bool) : (RoundTrip lib b lower ↔ b = null) ∧ RejectsEmpty lib := by
  constructor
  · have hequals : ∀ beyond,
        equals lib (ofString lib ⟨toString lib (ofBytes lib b) lower, 0 :: beyond⟩)
          (ofBytes lib b) = decide (null = b) := by
      intro beyond
      rw [ofString_text h, ofBytes_eq h]
      exact decide_eq_decide.mpr (h.compare null b)
    unfold RoundTrip
    simp only [hequals, decide_eq_true_iff]
    constructor
    · exact fun hall => (hall []).symm
    · exact fun hb _ => hb.symm
  · exact rejectsEmpty h

section Text
open Url (IS_HEX_CHAR HEX_VALUE hexChar)
open Hex (forall_byte digit)

/-- Whether a dash stands before the byte `i`. -/
def dashed (i : ℕ) : Bool := i = 4 ∨ i = 6 ∨ i = 8 ∨ i = 10

def dash (i : ℕ) : Str := if dashed i then ['-'.toUInt8] else []

/-- The bytes from `i` on, by the digits of a case. -/
def write (digits : UInt8 → Str) (i : ℕ) : Str → Str
  | [] => []
  | c :: bytes => dash i ++ (digits c ++ write digits (i + 1) bytes)

def readByte : Str → Option (UInt8 × Str)
  | h :: l :: s =>
    if IS_HEX_CHAR h ∧ IS_HEX_CHAR l then some (HEX_VALUE h <<< 4 ||| HEX_VALUE l, s) else none
  | _ => none

def readDash (i : ℕ) (s : Str) : Option Str :=
  if dashed i then if s.head? = some '-'.toUInt8 then some s.tail else none else some s

/-- The `n` bytes from `i` on, which end the text. -/
def read (i : ℕ) : ℕ → Str → Option Str
  | 0, s => if s = [] then some [] else none
  | n + 1, s => do
    let s ← readDash i s
    let (c, s) ← readByte s
    let bytes ← read (i + 1) n s
    some (c :: bytes)

def meaning (s : Str) : Option Bin :=
  match read 0 16 s with
  | none => none
  | some bytes => if h : bytes.length = 16 then some ⟨bytes, h⟩ else none

def lowerDigits (c : UInt8) : Str := [digit (c >>> 4), digit (c &&& 0x0F)]

def upperDigits (c : UInt8) : Str := [hexChar (c >>> 4), hexChar (c &&& 0x0F)]

/-- The library for the textual form of a UUID, but for the values that it generates. -/
def reference : Libuuid where
  uuid_copy _ src := src
  uuid_clear _ := null
  uuid_parse s out := match meaning s with
    | some b => (0, b)
    | none => (-1, out)
  uuid_generate_time_safe _ := (0, null)
  uuid_unparse_lower b := write lowerDigits 0 b.bytes
  uuid_unparse_upper b := write upperDigits 0 b.bytes
  uuid_compare a b := if a = b then 0 else 1
  uuid_is_null a := if a = null then 1 else 0

/-- Two digits that are read as the byte. -/
structure Digits (digits : UInt8 → Str) : Prop where
  read : ∀ c s, readByte (digits c ++ s) = some (c, s)
  length : ∀ c, (digits c).length = 2
  nul : ∀ c, 0 ∉ digits c

variable {digits : UInt8 → Str} {h l : UInt8 → UInt8}

theorem digits_of_byte (hread : ∀ c, IS_HEX_CHAR (h c) ∧ IS_HEX_CHAR (l c) ∧
    HEX_VALUE (h c) <<< 4 ||| HEX_VALUE (l c) = c ∧ h c ≠ 0 ∧ l c ≠ 0) :
    Digits fun c => [h c, l c] where
  read c s := by
    obtain ⟨hh, hl, hvalue, -, -⟩ := hread c
    have hstep : readByte ([h c, l c] ++ s) = if IS_HEX_CHAR (h c) ∧ IS_HEX_CHAR (l c) then
      some (HEX_VALUE (h c) <<< 4 ||| HEX_VALUE (l c), s) else none := rfl
    rw [hstep, if_pos ⟨hh, hl⟩, hvalue]
  length _ := rfl
  nul c hmem := by
    obtain ⟨-, -, -, hh, hl⟩ := hread c
    rcases List.mem_cons.mp hmem with h0 | h0
    · exact hh h0.symm
    · exact hl (List.mem_singleton.mp h0).symm

set_option maxRecDepth 8000 in
theorem digits_lower : Digits lowerDigits := by
  apply digits_of_byte
  intro c
  apply forall_byte (p := fun c => IS_HEX_CHAR (digit (c >>> 4)) ∧
    IS_HEX_CHAR (digit (c &&& 0x0F)) ∧
    HEX_VALUE (digit (c >>> 4)) <<< 4 ||| HEX_VALUE (digit (c &&& 0x0F)) = c ∧
    digit (c >>> 4) ≠ 0 ∧ digit (c &&& 0x0F) ≠ 0)
  decide

set_option maxRecDepth 8000 in
theorem digits_upper : Digits upperDigits := by
  apply digits_of_byte
  intro c
  apply forall_byte (p := fun c => IS_HEX_CHAR (hexChar (c >>> 4)) ∧
    IS_HEX_CHAR (hexChar (c &&& 0x0F)) ∧
    HEX_VALUE (hexChar (c >>> 4)) <<< 4 ||| HEX_VALUE (hexChar (c &&& 0x0F)) = c ∧
    hexChar (c >>> 4) ≠ 0 ∧ hexChar (c &&& 0x0F) ≠ 0)
  decide

theorem readDash_dash (i : ℕ) (s : Str) : readDash i (dash i ++ s) = some s := by
  unfold readDash dash
  split_ifs with hi hs
  · rfl
  · exact absurd rfl hs
  · rfl

theorem read_write (hd : Digits digits) (i : ℕ) (bytes : Str) :
    read i bytes.length (write digits i bytes) = some bytes := by
  induction bytes generalizing i with
  | nil => rfl
  | cons c bytes ih =>
    rw [List.length_cons, write, read, readDash_dash, Option.bind_eq_bind, Option.bind_some,
      hd.read, Option.bind_eq_bind, Option.bind_some]
    dsimp only
    rw [ih, Option.bind_some]

/-- Each byte takes two characters, and some a dash before them. -/
theorem length_write (hd : Digits digits) (i : ℕ) (bytes : Str) : (write digits i bytes).length =
    2 * bytes.length + (List.range' i bytes.length).countP dashed := by
  induction bytes generalizing i with
  | nil => rfl
  | cons c bytes ih =>
    have hdash : (dash i).length = if dashed i then 1 else 0 := by
      unfold dash
      split_ifs
      · rfl
      · rfl
    rw [write, List.length_append, List.length_append, ih, hd.length, hdash, List.length_cons,
      List.range'_succ, List.countP_cons]
    omega

theorem nul_write (hd : Digits digits) (i : ℕ) (bytes : Str) : 0 ∉ write digits i bytes := by
  induction bytes generalizing i with
  | nil => exact List.not_mem_nil
  | cons c bytes ih =>
    have hdash : 0 ∉ dash i := by
      unfold dash
      split_ifs
      · decide
      · exact List.not_mem_nil
    rw [write, List.mem_append, List.mem_append]
    rintro (h | h | h)
    · exact hdash h
    · exact hd.nul c h
    · exact ih (i + 1) h

theorem unparse_reference (lower : Bool) : ∃ digits, Digits digits ∧
    ∀ b, reference.unparse lower b = write digits 0 b.bytes := by
  cases lower with
  | true => exact ⟨lowerDigits, digits_lower, fun _ => rfl⟩
  | false => exact ⟨upperDigits, digits_upper, fun _ => rfl⟩

theorem documented_reference : Documented reference meaning where
  copy _ _ := rfl
  clear _ := rfl
  valid hs out := by
    unfold reference
    dsimp only
    rw [hs]
  invalid hs out := by
    unfold reference
    dsimp only
    rw [hs]
    have hcode : (-1 : ℤ) ≠ 0 := by decide
    exact ⟨hcode, rfl⟩
  unparse lower b := by
    obtain ⟨digits, hd, hwrite⟩ := unparse_reference lower
    have hread := read_write hd 0 b.bytes
    rw [b.size] at hread
    rw [hwrite, meaning, hread]
    exact dif_pos b.size
  length lower b := by
    obtain ⟨digits, hd, hwrite⟩ := unparse_reference lower
    rw [hwrite, length_write hd, b.size]
    rfl
  nul lower b := by
    obtain ⟨digits, hd, hwrite⟩ := unparse_reference lower
    rw [hwrite]
    exact nul_write hd 0 b.bytes
  compare a b := by
    unfold reference
    dsimp only
    split_ifs with h
    · exact iff_of_true rfl h
    · exact iff_of_false (by decide) h
  is_null a := by
    unfold reference
    dsimp only
    split_ifs with h
    · exact iff_of_true (by decide) h
    · exact iff_of_false (not_not.mpr rfl) h

end Text

theorem roundTrip_null : RoundTrip reference null true :=
  (roundTrip_iff reference meaning documented_reference null true).1.mpr rfl

/-- The value of sixteen ones is read back as the null value. -/
theorem not_roundTrip_ones : ¬ ∀ lib meaning, Documented lib meaning →
    (∀ b lower, RoundTrip lib b lower) ∧ RejectsEmpty lib := by
  intro h
  have hequal := (h reference meaning documented_reference).1 ⟨List.replicate 16 1, rfl⟩ true []
  rw [ofString_text documented_reference] at hequal
  revert hequal
  decide

end Uuid

end Suil.Utils
