import Mathlib.Data.Nat.Notation
import Mathlib.Data.Int.Notation
import Mathlib.Data.List.GetD
import Mathlib.Algebra.Ring.Nat
import Mathlib.Algebra.Ring.Int.Defs

/-! Base64 as `suil::B64` encodes and decodes it. The `StringBuffer` behind the stream appends
every byte that is put. A pointer is what it points to: `it k` is `it[k]`. -/
namespace Suil.Utils.B64

def b64table : List UInt8 :=
  ['A', 'B', 'C', 'D', 'E', 'F', 'G', 'H', 'I', 'J', 'K', 'L', 'M', 'N', 'O', 'P',
    'Q', 'R', 'S', 'T', 'U', 'V', 'W', 'X', 'Y', 'Z', 'a', 'b', 'c', 'd', 'e', 'f',
    'g', 'h', 'i', 'j', 'k', 'l', 'm', 'n', 'o', 'p', 'q', 'r', 's', 't', 'u', 'v',
    'w', 'x', 'y', 'z', '0', '1', '2', '3', '4', '5', '6', '7', '8', '9', '+', '/'].map Char.toUInt8

/-- `b64table[i]`; the array ends with a NUL. -/
def table (i : UInt8) : UInt8 := b64table.getD i.toNat 0

/-- The byte `'='`. -/
def pad : UInt8 := 61

def encode : List UInt8 → List UInt8
  | x :: y :: z :: data =>
    table ((x &&& 0xFC) >>> 2) ::
      table (((x &&& 0x03) <<< 4) ||| ((y &&& 0xF0) >>> 4)) ::
      table (((y &&& 0x0F) <<< 2) ||| ((z &&& 0xC0) >>> 6)) ::
      table (z &&& 0x3F) :: encode data
  | [x] => [table ((x &&& 0xFC) >>> 2), table ((x &&& 0x03) <<< 4), pad, pad]
  | [x, y] =>
    [table ((x &&& 0xFC) >>> 2), table (((x &&& 0x03) <<< 4) ||| ((y &&& 0xF0) >>> 4)),
      table ((y &&& 0x0F) <<< 2), pad]
  | [] => []

def lookupTable : List UInt8 :=
  [64, 64, 64, 64, 64, 64, 64, 64, 64, 64, 64, 64, 64, 64, 64, 64,
    64, 64, 64, 64, 64, 64, 64, 64, 64, 64, 64, 64, 64, 64, 64, 64,
    64, 64, 64, 64, 64, 64, 64, 64, 64, 64, 64, 62, 64, 64, 64, 63,
    52, 53, 54, 55, 56, 57, 58, 59, 60, 61, 64, 64, 64, 64, 64, 64,
    64, 0, 1, 2, 3, 4, 5, 6, 7, 8, 9, 10, 11, 12, 13, 14,
    15, 16, 17, 18, 19, 20, 21, 22, 23, 24, 25, 64, 64, 64, 64, 64,
    64, 26, 27, 28, 29, 30, 31, 32, 33, 34, 35, 36, 37, 38, 39, 40,
    41, 42, 43, 44, 45, 46, 47, 48, 49, 50, 51, 64, 64, 64, 64, 64,
    64, 64, 64, 64, 64, 64, 64, 64, 64, 64, 64, 64, 64, 64, 64, 64,
    64, 64, 64, 64, 64, 64, 64, 64, 64, 64, 64, 64, 64, 64, 64, 64,
    64, 64, 64, 64, 64, 64, 64, 64, 64, 64, 64, 64, 64, 64, 64, 64,
    64, 64, 64, 64, 64, 64, 64, 64, 64, 64, 64, 64, 64, 64, 64, 64,
    64, 64, 64, 64, 64, 64, 64, 64, 64, 64, 64, 64, 64, 64, 64, 64,
    64, 64, 64, 64, 64, 64, 64, 64, 64, 64, 64, 64, 64, 64, 64, 64,
    64, 64, 64, 64, 64, 64, 64, 64, 64, 64, 64, 64, 64, 64, 64, 64,
    64, 64, 64, 64, 64, 64, 64, 64, 64, 64, 64, 64, 64, 64, 64, 64]

/-- `ASCII_LOOKUP[c]`, which has an entry for every byte. -/
def ASCII_LOOKUP (c : UInt8) : UInt8 := lookupTable.getD c.toNat 64

structure InvalidArguments where
  message : String
  deriving DecidableEq

def invalid : InvalidArguments := ⟨"utils64::decode - invalid B64 encoded string passed"⟩

/-- A `size_t`, and whether a subtraction has wrapped on the way to it. -/
structure Size where
  sz : ℕ
  wrapped : Bool

def Size.sub (s : Size) (n : ℕ) : Size :=
  ⟨if n ≤ s.sz then s.sz - n else s.sz + 2 ^ 64 - n, s.wrapped || s.sz < n⟩

/-- What was put to the stream, what was thrown, and whether a `size_t` has wrapped. -/
structure Run where
  os : List UInt8
  thrown : Option InvalidArguments
  wrapped : Bool

/-- The three bytes of the group at `it`. -/
def first (it : ℕ → UInt8) : UInt8 := ASCII_LOOKUP (it 0) <<< 2 ||| ASCII_LOOKUP (it 1) >>> 4

def second (it : ℕ → UInt8) : UInt8 := ASCII_LOOKUP (it 1) <<< 4 ||| ASCII_LOOKUP (it 2) >>> 2

def third (it : ℕ → UInt8) : UInt8 := ASCII_LOOKUP (it 2) <<< 6 ||| ASCII_LOOKUP (it 3)

/-- The loop that looks for the end of the last group, from `i`. -/
def scan (it : ℕ → UInt8) (i : ℕ) : ℕ :=
  if it i ≠ pad ∧ ASCII_LOOKUP (it i) ≠ 64 then
    if i < 4 then scan it (i + 1) else i + 1
  else i
termination_by 4 - i

/-- `(size_t) (4 - i)`. -/
def missing (i : ℕ) : ℕ := ((4 - i : ℤ) % 2 ^ 64).toNat

/-- The bytes of the last group. -/
def putLast (it : ℕ → UInt8) (sz : ℕ) (os : List UInt8) : List UInt8 :=
  os ++ (if sz > 1 then [first it] else []) ++ (if sz > 2 then [second it] else []) ++
    (if sz > 3 then [third it] else [])

/-- What follows the loop over the groups. -/
def decodeLast (it : ℕ → UInt8) (sz : Size) (os : List UInt8) : Run :=
  let i := scan it 0
  let left := sz.sub i
  if left.sz ≠ 0 ∧ it i ≠ pad then ⟨os, some invalid, left.wrapped⟩
  else
    let sz := Size.sub ⟨sz.sz, left.wrapped⟩ (missing i)
    ⟨putLast it sz.sz os, none, sz.wrapped⟩

/-- The loop over the groups, and what follows it. -/
def decodeFrom (it : ℕ → UInt8) (sz : Size) (os : List UInt8) : Run :=
  if sz.sz > 4 then
    if ASCII_LOOKUP (it 0) = 64 ∨ ASCII_LOOKUP (it 1) = 64 ∨ ASCII_LOOKUP (it 2) = 64 ∨
        ASCII_LOOKUP (it 3) = 64 then
      ⟨os, some invalid, sz.wrapped⟩
    else
      decodeFrom (fun k => it (k + 4)) (sz.sub 4) (os ++ [first it, second it, third it])
  else decodeLast it sz os
termination_by sz.sz
decreasing_by
  simp only [Size.sub]
  split <;> omega

def decode (it : ℕ → UInt8) (size : ℕ) : Run := decodeFrom it ⟨size, false⟩ []

/-- The memory from a string on: its bytes, a NUL, and whatever comes after. -/
def memory : List UInt8 → (ℕ → UInt8) → ℕ → UInt8
  | [], _, 0 => 0
  | [], beyond, k + 1 => beyond k
  | c :: _, _, 0 => c
  | _ :: s, beyond, k + 1 => memory s beyond k

/-- The string that `decode` returns for `s`, or what it throws. -/
def decodeString (s : List UInt8) (beyond : ℕ → UInt8) : Except InvalidArguments (List UInt8) :=
  let run := decode (memory s beyond) s.length
  match run.thrown with
  | some e => .error e
  | none => .ok run.os

section Bytes
variable {a b : UInt8}

theorem lookup_table (ha : a.toNat < 64) : ASCII_LOOKUP (table a) = a := by
  have h : ∀ i < 64, ASCII_LOOKUP (table (.ofNat i)) = .ofNat i := by decide
  have := h a.toNat ha
  rwa [UInt8.ofNat_toNat] at this

set_option maxRecDepth 2000 in
theorem table_lookup (c : UInt8) :
    ASCII_LOOKUP c = 64 ∨ (ASCII_LOOKUP c).toNat < 64 ∧ table (ASCII_LOOKUP c) = c := by
  have hall : (lookupTable.zipIdx.all fun p =>
      p.1 = 64 ∨ p.1.toNat < 64 ∧ table p.1 = UInt8.ofNat p.2) = true := by decide
  have hlen : lookupTable.length = 256 := by decide
  have hlt : c.toNat < lookupTable.length := hlen ▸ c.toNat_lt
  have hget : ASCII_LOOKUP c = lookupTable[c.toNat] := List.getD_eq_getElem _ _ hlt
  have hmem : (lookupTable[c.toNat], c.toNat) ∈ lookupTable.zipIdx := by
    rw [List.mk_mem_zipIdx_iff_getElem?]
    exact List.getElem?_eq_getElem hlt
  have h := of_decide_eq_true (List.all_eq_true.mp hall _ hmem)
  rw [UInt8.ofNat_toNat] at h
  rw [hget]
  exact h

theorem table_mem (ha : a.toNat < 64) : table a ∈ b64table := by
  have hlen : a.toNat < b64table.length := ha
  rw [table, List.getD_eq_getElem _ _ hlen]
  exact List.getElem_mem hlen

theorem mem_b64table_iff (c : UInt8) : c ∈ b64table ↔ ASCII_LOOKUP c ≠ 64 := by
  constructor
  · have hall : (b64table.all fun c => ASCII_LOOKUP c ≠ 64) = true := by decide
    exact fun hc => of_decide_eq_true (List.all_eq_true.mp hall c hc)
  · intro hc
    rcases table_lookup c with h | ⟨hlt, heq⟩
    · exact absurd h hc
    · rw [← heq]
      exact table_mem hlt

theorem pad_not_mem : pad ∉ b64table := by decide

theorem nul_not_mem : (0 : UInt8) ∉ b64table := by decide

/-- The bits of the two do not overlap. -/
theorem or_toNat {i m k : ℕ} (hm : m = 2 ^ i) (ha : a.toNat = m * k) (hb : b.toNat < m) :
    (a ||| b).toNat = a.toNat + b.toNat := by
  rw [hm] at ha hb
  rw [UInt8.toNat_or, ha]
  exact (Nat.two_pow_add_eq_or_of_lt hb k).symm

theorem toNat_shl2 (x : UInt8) : (x <<< 2).toNat = 4 * (x.toNat % 64) := by
  have hshift : (x <<< 2).toNat = x.toNat <<< 2 % 2 ^ 8 := UInt8.toNat_shiftLeft x 2
  rw [hshift, Nat.shiftLeft_eq]
  omega

theorem toNat_shl4 (x : UInt8) : (x <<< 4).toNat = 16 * (x.toNat % 16) := by
  have hshift : (x <<< 4).toNat = x.toNat <<< 4 % 2 ^ 8 := UInt8.toNat_shiftLeft x 4
  rw [hshift, Nat.shiftLeft_eq]
  omega

theorem toNat_shl6 (x : UInt8) : (x <<< 6).toNat = 64 * (x.toNat % 4) := by
  have hshift : (x <<< 6).toNat = x.toNat <<< 6 % 2 ^ 8 := UInt8.toNat_shiftLeft x 6
  rw [hshift, Nat.shiftLeft_eq]
  omega

theorem toNat_shr2 (x : UInt8) : (x >>> 2).toNat = x.toNat / 4 := by
  have hshift : (x >>> 2).toNat = x.toNat >>> 2 := UInt8.toNat_shiftRight x 2
  rw [hshift, Nat.shiftRight_eq_div_pow]

theorem toNat_shr4 (x : UInt8) : (x >>> 4).toNat = x.toNat / 16 := by
  have hshift : (x >>> 4).toNat = x.toNat >>> 4 := UInt8.toNat_shiftRight x 4
  rw [hshift, Nat.shiftRight_eq_div_pow]

/-- The bits of a byte from `k` on, where the mask `m` has all of them. -/
theorem and_shiftRight {x m k n : ℕ} (hm : m >>> k = 2 ^ n - 1) (hx : x / 2 ^ k < 2 ^ n) :
    (x &&& m) >>> k = x / 2 ^ k := by
  rw [Nat.shiftRight_and_distrib, hm, Nat.and_two_pow_sub_one_eq_mod, Nat.shiftRight_eq_div_pow,
    Nat.mod_eq_of_lt hx]

theorem high6 (x : UInt8) : ((x &&& 0xFC) >>> 2).toNat = x.toNat / 4 := by
  have hlt := x.toNat_lt
  have hshift : ((x &&& 0xFC) >>> 2).toNat = (x.toNat &&& 252) >>> 2 :=
    UInt8.toNat_shiftRight (x &&& 0xFC) 2
  rw [hshift, and_shiftRight (n := 6) rfl (by omega)]
  omega

theorem high4 (x : UInt8) : ((x &&& 0xF0) >>> 4).toNat = x.toNat / 16 := by
  have hlt := x.toNat_lt
  have hshift : ((x &&& 0xF0) >>> 4).toNat = (x.toNat &&& 240) >>> 4 :=
    UInt8.toNat_shiftRight (x &&& 0xF0) 4
  rw [hshift, and_shiftRight (n := 4) rfl (by omega)]
  omega

theorem high2 (x : UInt8) : ((x &&& 0xC0) >>> 6).toNat = x.toNat / 64 := by
  have hlt := x.toNat_lt
  have hshift : ((x &&& 0xC0) >>> 6).toNat = (x.toNat &&& 192) >>> 6 :=
    UInt8.toNat_shiftRight (x &&& 0xC0) 6
  rw [hshift, and_shiftRight (n := 2) rfl (by omega)]
  omega

theorem low6 (x : UInt8) : (x &&& 0x3F).toNat = x.toNat % 64 := by
  have hand : (x &&& 0x3F).toNat = x.toNat &&& (2 ^ 6 - 1) := UInt8.toNat_and x 0x3F
  rw [hand, Nat.and_two_pow_sub_one_eq_mod]

theorem low4 (x : UInt8) : ((x &&& 0x0F) <<< 2).toNat = 4 * (x.toNat % 16) := by
  have hand : (x &&& 0x0F).toNat = x.toNat &&& (2 ^ 4 - 1) := UInt8.toNat_and x 0x0F
  rw [toNat_shl2, hand, Nat.and_two_pow_sub_one_eq_mod]
  omega

theorem low2 (x : UInt8) : ((x &&& 0x03) <<< 4).toNat = 16 * (x.toNat % 4) := by
  have hand : (x &&& 0x03).toNat = x.toNat &&& (2 ^ 2 - 1) := UInt8.toNat_and x 0x03
  rw [toNat_shl4, hand, Nat.and_two_pow_sub_one_eq_mod]
  omega

/-- The three bytes back from four digits. -/
theorem first_toNat {it : ℕ → UInt8} {p q : UInt8} (hp : ASCII_LOOKUP (it 0) = p)
    (hq : ASCII_LOOKUP (it 1) = q) (hlt : q.toNat < 64) :
    (first it).toNat = 4 * (p.toNat % 64) + q.toNat / 16 := by
  have hlow : (q >>> 4).toNat < 4 := by
    rw [toNat_shr4]
    omega
  rw [first, hp, hq, or_toNat (i := 2) rfl (toNat_shl2 p) hlow, toNat_shl2, toNat_shr4]

theorem second_toNat {it : ℕ → UInt8} {q r : UInt8} (hq : ASCII_LOOKUP (it 1) = q)
    (hr : ASCII_LOOKUP (it 2) = r) (hlt : r.toNat < 64) :
    (second it).toNat = 16 * (q.toNat % 16) + r.toNat / 4 := by
  have hlow : (r >>> 2).toNat < 16 := by
    rw [toNat_shr2]
    omega
  rw [second, hq, hr, or_toNat (i := 4) rfl (toNat_shl4 q) hlow, toNat_shl4, toNat_shr2]

theorem third_toNat {it : ℕ → UInt8} {r t : UInt8} (hr : ASCII_LOOKUP (it 2) = r)
    (ht : ASCII_LOOKUP (it 3) = t) (hlt : t.toNat < 64) :
    (third it).toNat = 64 * (r.toNat % 4) + t.toNat := by
  rw [third, hr, ht, or_toNat (i := 6) rfl (toNat_shl6 r) hlt, toNat_shl6]

end Bytes

/-- The digits that `encode` looks up for the bytes `x`, `y` and `z`. -/
structure Digits (x y z p q r t : UInt8) : Prop where
  p_eq : p.toNat = x.toNat / 4
  q_eq : q.toNat = 16 * (x.toNat % 4) + y.toNat / 16
  r_eq : r.toNat = 4 * (y.toNat % 16) + z.toNat / 64
  t_eq : t.toNat = z.toNat % 64

theorem digits (x y z : UInt8) :
    Digits x y z ((x &&& 0xFC) >>> 2) (((x &&& 0x03) <<< 4) ||| ((y &&& 0xF0) >>> 4))
      (((y &&& 0x0F) <<< 2) ||| ((z &&& 0xC0) >>> 6)) (z &&& 0x3F) := by
  have hy := y.toNat_lt
  have hz := z.toNat_lt
  constructor
  · exact high6 x
  · have hlow : ((y &&& 0xF0) >>> 4).toNat < 16 := by
      rw [high4]
      omega
    rw [or_toNat (i := 4) rfl (low2 x) hlow, low2, high4]
  · have hlow : ((z &&& 0xC0) >>> 6).toNat < 4 := by
      rw [high2]
      omega
    rw [or_toNat (i := 2) rfl (low4 y) hlow, low4, high2]
  · exact low6 z

theorem digits_two (x y : UInt8) :
    Digits x y 0 ((x &&& 0xFC) >>> 2) (((x &&& 0x03) <<< 4) ||| ((y &&& 0xF0) >>> 4))
      ((y &&& 0x0F) <<< 2) 0 where
  p_eq := (digits x y 0).p_eq
  q_eq := (digits x y 0).q_eq
  r_eq := low4 y
  t_eq := rfl

theorem digits_one (x : UInt8) :
    Digits x 0 0 ((x &&& 0xFC) >>> 2) ((x &&& 0x03) <<< 4) 0 0 where
  p_eq := high6 x
  q_eq := low2 x
  r_eq := rfl
  t_eq := rfl

section Decode
variable {it : ℕ → UInt8} {x y z p q r t : UInt8} {sz i n : ℕ} {os s : List UInt8}
  {beyond : ℕ → UInt8}

theorem Digits.lt (h : Digits x y z p q r t) :
    p.toNat < 64 ∧ q.toNat < 64 ∧ r.toNat < 64 ∧ t.toNat < 64 := by
  have hx := x.toNat_lt
  have hy := y.toNat_lt
  have hz := z.toNat_lt
  obtain ⟨hp, hq, hr, ht⟩ := h
  omega

theorem Digits.first_eq (h : Digits x y z p q r t) (hp : it 0 = table p) (hq : it 1 = table q) :
    first it = x := by
  obtain ⟨hplt, hqlt, -, -⟩ := h.lt
  have hx := x.toNat_lt
  have hy := y.toNat_lt
  have hp' : ASCII_LOOKUP (it 0) = p := hp ▸ lookup_table hplt
  have hq' : ASCII_LOOKUP (it 1) = q := hq ▸ lookup_table hqlt
  apply UInt8.toNat_inj.mp
  rw [first_toNat hp' hq' hqlt, h.p_eq, h.q_eq]
  omega

theorem Digits.second_eq (h : Digits x y z p q r t) (hq : it 1 = table q) (hr : it 2 = table r) :
    second it = y := by
  obtain ⟨-, hqlt, hrlt, -⟩ := h.lt
  have hy := y.toNat_lt
  have hz := z.toNat_lt
  have hq' : ASCII_LOOKUP (it 1) = q := hq ▸ lookup_table hqlt
  have hr' : ASCII_LOOKUP (it 2) = r := hr ▸ lookup_table hrlt
  apply UInt8.toNat_inj.mp
  rw [second_toNat hq' hr' hrlt, h.q_eq, h.r_eq]
  omega

theorem Digits.third_eq (h : Digits x y z p q r t) (hr : it 2 = table r) (ht : it 3 = table t) :
    third it = z := by
  obtain ⟨-, -, hrlt, htlt⟩ := h.lt
  have hz := z.toNat_lt
  have hr' : ASCII_LOOKUP (it 2) = r := hr ▸ lookup_table hrlt
  have ht' : ASCII_LOOKUP (it 3) = t := ht ▸ lookup_table htlt
  apply UInt8.toNat_inj.mp
  rw [third_toNat hr' ht' htlt, h.r_eq, h.t_eq]
  omega

/-- The scan stops at the first byte outside the alphabet. -/
theorem scan_eq (hn : n ≤ 4) (hi : i ≤ n) (hin : ∀ k, i ≤ k → k < n → it k ∈ b64table)
    (hout : it n ∉ b64table) : scan it i = n := by
  induction hk : n - i generalizing i with
  | zero =>
    have hni : i = n := by omega
    subst hni
    rw [scan, if_neg]
    rintro ⟨-, h⟩
    exact hout ((mem_b64table_iff _).mpr h)
  | succ k ih =>
    have hmem := hin i (Nat.le_refl i) (by omega)
    have hne : it i ≠ pad := fun h => pad_not_mem (h ▸ hmem)
    rw [scan, if_pos ⟨hne, (mem_b64table_iff _).mp hmem⟩, if_pos (by omega)]
    exact ih (by omega) (fun j hj => hin j (by omega)) (by omega)

theorem missing_eq (hi : i ≤ 4) : missing i = 4 - i := by
  unfold missing
  omega

/-- The last group is accepted when the scan stops behind it or at an `'='`. -/
theorem decodeLast_accept (hscan : scan it 0 = i) (hi : i ≤ sz) (hsz : sz ≤ 4)
    (hpad : i = sz ∨ it i = pad) :
    decodeLast it ⟨sz, false⟩ os =
      ⟨putLast it (Size.sub ⟨sz, false⟩ (4 - i)).sz os, none,
        (Size.sub ⟨sz, false⟩ (4 - i)).wrapped⟩ := by
  have hleft : Size.sub ⟨sz, false⟩ i = ⟨sz - i, false⟩ := by
    simp [Size.sub, hi]
  have hok : ¬ (sz - i ≠ 0 ∧ it i ≠ pad) := by
    rintro ⟨hne, hne'⟩
    rcases hpad with h | h
    · omega
    · exact hne' h
  rw [decodeLast, hscan, missing_eq (by omega)]
  simp only [hleft, if_neg hok]

theorem decodeLast_reject (hscan : scan it 0 = i) (hi : i < sz) (hpad : it i ≠ pad) :
    decodeLast it ⟨sz, false⟩ os = ⟨os, some invalid, false⟩ := by
  have hleft : Size.sub ⟨sz, false⟩ i = ⟨sz - i, false⟩ := by
    simp [Size.sub, Nat.le_of_lt hi]
  have hne : sz - i ≠ 0 := by omega
  rw [decodeLast, hscan]
  simp only [hleft, if_pos (And.intro hne hpad)]

theorem decodeFrom_last (hsz : sz ≤ 4) : decodeFrom it ⟨sz, false⟩ os = decodeLast it ⟨sz, false⟩ os := by
  rw [decodeFrom, if_neg (Nat.not_lt.mpr hsz)]

/-- A group before the last one, whose bytes are in the alphabet. -/
theorem decodeFrom_group (hsz : 4 < sz) (h : ∀ k < 4, it k ∈ b64table) :
    decodeFrom it ⟨sz, false⟩ os = decodeFrom (fun k => it (k + 4)) ⟨sz - 4, false⟩
      (os ++ [first it, second it, third it]) := by
  have hsub : Size.sub ⟨sz, false⟩ 4 = ⟨sz - 4, false⟩ := by
    simp only [Size.sub, if_pos (Nat.le_of_lt hsz), Bool.false_or, decide_eq_false_iff_not,
      Size.mk.injEq, true_and]
    omega
  have hlook : ∀ k < 4, ASCII_LOOKUP (it k) ≠ 64 := fun k hk => (mem_b64table_iff _).mp (h k hk)
  rw [decodeFrom, if_pos hsz, if_neg, hsub]
  simp [hlook]

theorem decodeFrom_reject (hsz : 4 < sz) {k : ℕ} (hk : k < 4) (h : it k ∉ b64table) :
    decodeFrom it ⟨sz, false⟩ os = ⟨os, some invalid, false⟩ := by
  have hlook : ASCII_LOOKUP (it k) = 64 := by
    rw [mem_b64table_iff] at h
    exact Decidable.not_not.mp h
  rw [decodeFrom, if_pos hsz, if_pos]
  obtain rfl | rfl | rfl | rfl : k = 0 ∨ k = 1 ∨ k = 2 ∨ k = 3 := by omega
  · exact .inl hlook
  · exact .inr (.inl hlook)
  · exact .inr (.inr (.inl hlook))
  · exact .inr (.inr (.inr hlook))

theorem encode_ne_nil {bs : List UInt8} (h : bs ≠ []) : encode bs ≠ [] := by
  fun_cases encode bs with
  | case4 => exact absurd rfl h
  | _ => exact nofun

theorem decodeFrom_encode_one (x : UInt8) :
    decodeFrom (memory (encode [x]) beyond) ⟨4, false⟩ os = ⟨os ++ [x], none, false⟩ := by
  have h := digits_one x
  have hscan : scan (memory (encode [x]) beyond) 0 = 2 := by
    refine scan_eq (by decide) (by decide) (fun k _ hk => ?_) pad_not_mem
    match k, hk with
    | 0, _ => exact table_mem h.lt.1
    | 1, _ => exact table_mem h.lt.2.1
  rw [decodeFrom_last (by decide),
    decodeLast_accept hscan (by decide) (by decide) (.inr rfl)]
  have hfirst : first (memory (encode [x]) beyond) = x := h.first_eq rfl rfl
  simp [Size.sub, putLast, hfirst]

theorem decodeFrom_encode_two (x y : UInt8) :
    decodeFrom (memory (encode [x, y]) beyond) ⟨4, false⟩ os = ⟨os ++ [x, y], none, false⟩ := by
  have h := digits_two x y
  have hscan : scan (memory (encode [x, y]) beyond) 0 = 3 := by
    refine scan_eq (by decide) (by decide) (fun k _ hk => ?_) pad_not_mem
    match k, hk with
    | 0, _ => exact table_mem h.lt.1
    | 1, _ => exact table_mem h.lt.2.1
    | 2, _ => exact table_mem h.lt.2.2.1
  rw [decodeFrom_last (by decide),
    decodeLast_accept hscan (by decide) (by decide) (.inr rfl)]
  have hfirst : first (memory (encode [x, y]) beyond) = x := h.first_eq rfl rfl
  have hsecond : second (memory (encode [x, y]) beyond) = y := h.second_eq rfl rfl
  simp [Size.sub, putLast, hfirst, hsecond]

theorem memory_group_mem {data : List UInt8} :
    ∀ k < 4, memory (encode (x :: y :: z :: data)) beyond k ∈ b64table := by
  obtain ⟨hp, hq, hr, ht⟩ := (digits x y z).lt
  intro k hk
  match k, hk with
  | 0, _ => exact table_mem hp
  | 1, _ => exact table_mem hq
  | 2, _ => exact table_mem hr
  | 3, _ => exact table_mem ht

theorem decodeFrom_encode {bs : List UInt8} (h : bs ≠ []) :
    decodeFrom (memory (encode bs) beyond) ⟨(encode bs).length, false⟩ os =
      ⟨os ++ bs, none, false⟩ := by
  induction bs using encode.induct generalizing os with
  | case1 x y z data ih =>
    have hd := digits x y z
    have hfirst : first (memory (encode (x :: y :: z :: data)) beyond) = x := hd.first_eq rfl rfl
    have hsecond : second (memory (encode (x :: y :: z :: data)) beyond) = y :=
      hd.second_eq rfl rfl
    have hthird : third (memory (encode (x :: y :: z :: data)) beyond) = z := hd.third_eq rfl rfl
    have hlen : (encode (x :: y :: z :: data)).length = (encode data).length + 4 := rfl
    rw [hlen]
    by_cases hdata : data = []
    · subst hdata
      have hscan : scan (memory (encode [x, y, z]) beyond) 0 = 4 :=
        scan_eq (by decide) (by decide) (fun k _ hk => memory_group_mem k hk) nul_not_mem
      show decodeFrom _ ⟨4, false⟩ os = _
      rw [decodeFrom_last (by decide),
        decodeLast_accept hscan (by decide) (by decide) (.inl rfl)]
      simp [Size.sub, putLast, hfirst, hsecond, hthird]
    · have hpos := List.length_pos_iff.mpr (encode_ne_nil hdata)
      rw [decodeFrom_group (by omega) memory_group_mem, hfirst, hsecond, hthird]
      show decodeFrom (memory (encode data) beyond) ⟨(encode data).length + 4 - 4, false⟩ _ = _
      rw [Nat.add_sub_cancel, ih hdata, List.append_assoc]
      rfl
  | case2 x => exact decodeFrom_encode_one x
  | case3 x y => exact decodeFrom_encode_two x y
  | case4 => exact absurd rfl h

/-- Without a group the correction of the size wraps, and three bytes are read and put. -/
theorem decode_empty : decode (memory [] beyond) 0 =
    ⟨[first (memory [] beyond), second (memory [] beyond), third (memory [] beyond)], none,
      true⟩ := by
  have hscan : scan (memory [] beyond) 0 = 0 := scan_eq (by decide) (by decide) (by omega) nul_not_mem
  rw [decode, decodeFrom_last (by decide),
    decodeLast_accept hscan (by decide) (by decide) (.inl rfl)]
  rfl

end Decode

theorem decode_encode_iff (bs : List UInt8) (beyond : ℕ → UInt8) :
    decodeString (encode bs) beyond = .ok bs ↔ bs ≠ [] := by
  constructor
  · rintro h rfl
    simp only [decodeString, encode, List.length_nil, decode_empty] at h
    exact absurd (Except.ok.inj h) nofun
  · intro h
    simp only [decodeString, decode, decodeFrom_encode h, List.nil_append]

/-- Three bytes come back for the empty string. -/
theorem decode_encode_empty : decodeString (encode []) (fun _ => 0) ≠ .ok [] := by
  simp only [decodeString, encode, List.length_nil, decode_empty]
  exact nofun

end Suil.Utils.B64
