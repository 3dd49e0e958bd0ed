import Suil.Lib.Bits
import Suil.Utils.B64

/-! `encode` against Base64 as it is defined on the bits of the input. -/
namespace Suil.Utils.B64
open Bits

/-- The character for a group of six bits: letters, digits, `'+'` and `'/'`. -/
def letter (i : ℕ) : UInt8 :=
  if i < 26 then 'A'.toUInt8 + .ofNat i
  else if i < 52 then 'a'.toUInt8 + .ofNat (i - 26)
  else if i < 62 then '0'.toUInt8 + .ofNat (i - 52)
  else if i = 62 then '+'.toUInt8
  else '/'.toUInt8

/-- The bits of the bytes, one byte after the other. -/
def stream (bs : List UInt8) : List Bool := bs.flatMap fun b => bits 8 b.toNat

/-- `4 * ⌈n / 3⌉`. -/
def encodedLength (n : ℕ) : ℕ := 4 * ((n + 2) / 3)

def letters (bs : List UInt8) : List UInt8 :=
  (groups 6 (stream bs)).map fun g => letter (number g)

/-- Base64 by its definition: groups of six bits, then `'='` up to the length. -/
def reference (bs : List UInt8) : List UInt8 :=
  (letters bs).rightpad (encodedLength bs.length) '='.toUInt8

theorem encodedLength_one : encodedLength 1 = 4 := by decide

theorem encodedLength_two : encodedLength 2 = 4 := by decide

section Groups
variable {x y z p q r t : UInt8} {bs : List UInt8}

theorem table_eq_letter (h : p.toNat < 64) : table p = letter p.toNat := by
  have hall : ∀ i < 64, table (.ofNat i) = letter i := by decide
  have hp := hall p.toNat h
  rwa [UInt8.ofNat_toNat] at hp

theorem letter_bits (h : p.toNat < 64) : letter (number (bits 6 p.toNat)) = table p := by
  rw [number_bits_of_lt h, table_eq_letter h]

/-- Three bytes and the four digits for them are the same bits. -/
theorem Digits.bits_eq (h : Digits x y z p q r t) :
    bits 8 x.toNat ++ (bits 8 y.toNat ++ bits 8 z.toNat) =
      bits 6 p.toNat ++ (bits 6 q.toNat ++ (bits 6 r.toNat ++ bits 6 t.toNat)) := by
  have hy := y.toNat_lt
  have hz := z.toNat_lt
  obtain ⟨-, hq, hr, ht⟩ := h.lt
  rw [bits_append hz, bits_append (by omega), bits_append ht, bits_append (by omega),
    bits_append (by omega)]
  congr 1
  rw [h.p_eq, h.q_eq, h.r_eq, h.t_eq]
  omega

theorem letters_group (h : Digits x y z p q r t) :
    letters (x :: y :: z :: bs) = table p :: table q :: table r :: table t :: letters bs := by
  obtain ⟨hp, hq, hr, ht⟩ := h.lt
  have hstream : stream (x :: y :: z :: bs) = bits 6 p.toNat ++ (bits 6 q.toNat ++
      (bits 6 r.toNat ++ (bits 6 t.toNat ++ stream bs))) := by
    have hbits := congrArg (· ++ stream bs) h.bits_eq
    simpa only [stream, List.flatMap_cons, List.append_assoc] using hbits
  unfold letters
  rw [hstream, groups_append (by decide) length_bits, groups_append (by decide) length_bits,
    groups_append (by decide) length_bits, groups_append (by decide) length_bits]
  simp only [List.map_cons, letter_bits hp, letter_bits hq, letter_bits hr, letter_bits ht]

theorem letters_two (h : Digits x y 0 p q r t) : letters [x, y] = [table p, table q, table r] := by
  obtain ⟨hp, hq, hr, -⟩ := h.lt
  have hy := y.toNat_lt
  have hlow : y.toNat % 16 < 2 ^ 4 := by omega
  have hstream : stream [x, y] =
      bits 6 p.toNat ++ (bits 6 q.toNat ++ bits 4 (y.toNat % 16)) := by
    unfold stream
    rw [List.flatMap_cons, List.flatMap_singleton, bits_append hy, bits_append hlow,
      bits_append (by omega)]
    congr 1
    rw [h.p_eq, h.q_eq]
    omega
  have hr_eq : 2 ^ 2 * (y.toNat % 16) = r.toNat := by
    rw [h.r_eq]
    rfl
  unfold letters
  rw [hstream, groups_append (by decide) length_bits, groups_append (by decide) length_bits,
    groups_last (j := 2) (by decide) rfl, hr_eq]
  simp only [List.map_cons, List.map_nil, letter_bits hp, letter_bits hq, letter_bits hr]

theorem letters_one (h : Digits x 0 0 p q r t) : letters [x] = [table p, table q] := by
  obtain ⟨hp, hq, -, -⟩ := h.lt
  have hlow : x.toNat % 4 < 2 ^ 2 := by omega
  have hstream : stream [x] = bits 6 p.toNat ++ bits 2 (x.toNat % 4) := by
    unfold stream
    rw [List.flatMap_singleton, bits_append hlow]
    congr 1
    rw [h.p_eq]
    omega
  have hq_eq : 2 ^ 4 * (x.toNat % 4) = q.toNat := by
    rw [h.q_eq]
    rfl
  unfold letters
  rw [hstream, groups_append (by decide) length_bits, groups_last (j := 4) (by decide) rfl, hq_eq]
  simp only [List.map_cons, List.map_nil, letter_bits hp, letter_bits hq]

theorem reference_group (h : Digits x y z p q r t) :
    reference (x :: y :: z :: bs) =
      table p :: table q :: table r :: table t :: reference bs := by
  have hlen : encodedLength (x :: y :: z :: bs).length = encodedLength bs.length + 4 := by
    simp only [encodedLength, List.length_cons]
    omega
  rw [reference, letters_group h, hlen]
  simp only [reference, List.rightpad, List.length_cons, Nat.add_assoc, Nat.reduceAdd,
    Nat.add_sub_add_right, List.cons_append]

end Groups

theorem encode_eq_reference (bs : List UInt8) : encode bs = reference bs := by
  induction bs using encode.induct with
  | case1 x y z data ih => rw [encode, reference_group (digits x y z), ih]
  | case2 x =>
    have hlen : encodedLength [x].length = 4 := encodedLength_one
    rw [reference, letters_one (digits_one x), hlen]
    rfl
  | case3 x y =>
    have hlen : encodedLength [x, y].length = 4 := encodedLength_two
    rw [reference, letters_two (digits_two x y), hlen]
    rfl
  | case4 => rw [encode, reference, letters, stream, List.flatMap_nil, groups_nil]; rfl

theorem length_encode (bs : List UInt8) : (encode bs).length = encodedLength bs.length := by
  induction bs using encode.induct with
  | case1 x y z data ih =>
    simp only [encode, List.length_cons, ih, encodedLength]
    omega
  | case2 x => exact encodedLength_one.symm
  | case3 x y => exact encodedLength_two.symm
  | case4 => rfl

theorem encode_rfc4648 (bs : List UInt8) :
    encode bs = reference bs ∧ (encode bs).length = encodedLength bs.length :=
  ⟨encode_eq_reference bs, length_encode bs⟩

end Suil.Utils.B64
