import Suil.Dns.Comp
import Suil.Dns.Ending
import Suil.Dns.Records
import Suil.Lib.Selection
import Mathlib.Data.Fintype.EquivFin
import Mathlib.Data.Int.Order.Basic
import Mathlib.Data.Nat.Bitwise

/-! The iterator of `dns_rr_grep`, which sorts nothing: each step goes through the packet again for
the record that comes next in the order of the packet or in a shuffled one. -/
namespace Suil.Dns
open CText (strcaseeq)

def sbox : List UInt8 :=
  [0x63, 0x7c, 0x77, 0x7b, 0xf2, 0x6b, 0x6f, 0xc5, 0x30, 0x01, 0x67, 0x2b, 0xfe, 0xd7, 0xab, 0x76,
    0xca, 0x82, 0xc9, 0x7d, 0xfa, 0x59, 0x47, 0xf0, 0xad, 0xd4, 0xa2, 0xaf, 0x9c, 0xa4, 0x72, 0xc0,
    0xb7, 0xfd, 0x93, 0x26, 0x36, 0x3f, 0xf7, 0xcc, 0x34, 0xa5, 0xe5, 0xf1, 0x71, 0xd8, 0x31, 0x15,
    0x04, 0xc7, 0x23, 0xc3, 0x18, 0x96, 0x05, 0x9a, 0x07, 0x12, 0x80, 0xe2, 0xeb, 0x27, 0xb2, 0x75,
    0x09, 0x83, 0x2c, 0x1a, 0x1b, 0x6e, 0x5a, 0xa0, 0x52, 0x3b, 0xd6, 0xb3, 0x29, 0xe3, 0x2f, 0x84,
    0x53, 0xd1, 0x00, 0xed, 0x20, 0xfc, 0xb1, 0x5b, 0x6a, 0xcb, 0xbe, 0x39, 0x4a, 0x4c, 0x58, 0xcf,
    0xd0, 0xef, 0xaa, 0xfb, 0x43, 0x4d, 0x33, 0x85, 0x45, 0xf9, 0x02, 0x7f, 0x50, 0x3c, 0x9f, 0xa8,
    0x51, 0xa3, 0x40, 0x8f, 0x92, 0x9d, 0x38, 0xf5, 0xbc, 0xb6, 0xda, 0x21, 0x10, 0xff, 0xf3, 0xd2,
    0xcd, 0x0c, 0x13, 0xec, 0x5f, 0x97, 0x44, 0x17, 0xc4, 0xa7, 0x7e, 0x3d, 0x64, 0x5d, 0x19, 0x73,
    0x60, 0x81, 0x4f, 0xdc, 0x22, 0x2a, 0x90, 0x88, 0x46, 0xee, 0xb8, 0x14, 0xde, 0x5e, 0x0b, 0xdb,
    0xe0, 0x32, 0x3a, 0x0a, 0x49, 0x06, 0x24, 0x5c, 0xc2, 0xd3, 0xac, 0x62, 0x91, 0x95, 0xe4, 0x79,
    0xe7, 0xc8, 0x37, 0x6d, 0x8d, 0xd5, 0x4e, 0xa9, 0x6c, 0x56, 0xf4, 0xea, 0x65, 0x7a, 0xae, 0x08,
    0xba, 0x78, 0x25, 0x2e, 0x1c, 0xa6, 0xb4, 0xc6, 0xe8, 0xdd, 0x74, 0x1f, 0x4b, 0xbd, 0x8b, 0x8a,
    0x70, 0x3e, 0xb5, 0x66, 0x48, 0x03, 0xf6, 0x0e, 0x61, 0x35, 0x57, 0xb9, 0x86, 0xc1, 0x1d, 0x9e,
    0xe1, 0xf8, 0x98, 0x11, 0x69, 0xd9, 0x8e, 0x94, 0x9b, 0x1e, 0x87, 0xe9, 0xce, 0x55, 0x28, 0xdf,
    0x8c, 0xa1, 0x89, 0x0d, 0xbf, 0xe6, 0x42, 0x68, 0x41, 0x99, 0x2d, 0x0f, 0xb0, 0x54, 0xbb, 0x16]

/-- The loop of `dns_k_shuffle16` over the bytes of the seed. -/
def shuffleFrom : ℕ → UInt32 → UInt8 × UInt8 → UInt8 × UInt8
  | 0, _, x => x
  | n + 1, s, (a, b) =>
    let key := (0xff : UInt32) &&& s
    let a := a ^^^ key.toUInt8
    let a := sbox.getD a.toNat 0 ^^^ b
    let b := sbox.getD b.toNat 0 ^^^ a
    shuffleFrom n (s >>> 8) (a, b)

def dnsKShuffle16 (n : UInt16) (s : UInt32) : UInt16 :=
  let low := (0xff : UInt16) &&& n >>> 0
  let high := (0xff : UInt16) &&& n >>> 8
  let (a, b) := shuffleFrom 4 s (low.toUInt8, high.toUInt8)
  (0xff00 : UInt16) &&& a.toUInt16 <<< 8 ||| (0x00ff : UInt16) &&& b.toUInt16 <<< 0

/-- Each byte sets a bit that the bytes before it have left clear. -/
def distinct : ℕ → List UInt8 → Bool
  | _, [] => true
  | seen, b :: bs => !seen.testBit b.toNat && distinct (seen ||| 1 <<< b.toNat) bs

theorem nodup_of_distinct {seen : ℕ} {l : List UInt8} (h : distinct seen l) :
    l.Nodup ∧ ∀ b ∈ l, seen.testBit b.toNat = false := by
  induction l generalizing seen with
  | nil => exact ⟨List.nodup_nil, fun b hb => absurd hb List.not_mem_nil⟩
  | cons a l ih =>
    obtain ⟨hclear, hrest⟩ := Bool.and_eq_true_iff.mp h
    obtain ⟨hnodup, hunseen⟩ := ih hrest
    have hne (b : UInt8) (hb : b ∈ l) :
        seen.testBit b.toNat = false ∧ (1 <<< a.toNat).testBit b.toNat = false :=
      Bool.or_eq_false_iff.mp (Nat.testBit_or .. ▸ hunseen b hb)
    have ha : a ∉ l := fun hmem => by simpa [Nat.one_shiftLeft] using (hne a hmem).2
    exact ⟨List.nodup_cons.mpr ⟨ha, hnodup⟩, List.forall_mem_cons.mpr
      ⟨by simpa using hclear, fun b hb => (hne b hb).1⟩⟩

theorem distinct_sbox : distinct 0 sbox = true := by decide +kernel

theorem length_sbox : sbox.length = 256 := by decide +kernel

theorem sbox_injective {a b : UInt8} (h : sbox.getD a.toNat 0 = sbox.getD b.toNat 0) : a = b := by
  have ha : a.toNat < sbox.length := length_sbox ▸ a.toNat_lt
  have hb : b.toNat < sbox.length := length_sbox ▸ b.toNat_lt
  rw [List.getD_eq_getElem _ _ ha, List.getD_eq_getElem _ _ hb] at h
  exact UInt8.toNat_inj.mp ((List.Nodup.getElem_inj_iff (nodup_of_distinct distinct_sbox).1).mp h)

/-- A round is undone from its second byte on. -/
theorem shuffleFrom_injective (n : ℕ) (s : UInt32) : Function.Injective (shuffleFrom n s) := by
  induction n generalizing s with
  | zero => exact fun _ _ h => h
  | succ n ih =>
    intro (a, b) (a', b') h
    obtain ⟨hfst, hsnd⟩ := Prod.mk.inj (ih _ h)
    rw [hfst, UInt8.xor_left_inj] at hsnd
    have hb : b = b' := sbox_injective hsnd
    rw [hb, UInt8.xor_left_inj] at hfst
    have ha := sbox_injective hfst
    rw [UInt8.xor_left_inj] at ha
    rw [ha, hb]

/-- The two bytes of the result, one behind the other. -/
theorem toNat_joined (a b : UInt8) :
    ((0xff00 : UInt16) &&& a.toUInt16 <<< 8 ||| (0x00ff : UInt16) &&& b.toUInt16 <<< 0).toNat =
      a.toNat * 256 + b.toNat := by
  have ha := a.toNat_lt
  have hb := b.toNat_lt
  have hfits : a.toNat <<< 8 < 65536 := by rw [Nat.shiftLeft_eq]; omega
  have hhigh : 0xff00 &&& a.toNat <<< 8 % 65536 = a.toNat <<< 8 := by
    rw [Nat.mod_eq_of_lt hfits, show (0xff00 : ℕ) = 0xff <<< 8 from rfl,
      ← Nat.shiftLeft_and_distrib, Nat.and_comm, Nat.and_two_pow_sub_one_of_lt_two_pow (n := 8) ha]
  have hlow : 0xff &&& b.toNat = b.toNat := by
    rw [Nat.and_comm, Nat.and_two_pow_sub_one_of_lt_two_pow (n := 8) hb]
  have hvalue : ((0xff00 : UInt16) &&& a.toUInt16 <<< 8 |||
      (0x00ff : UInt16) &&& b.toUInt16 <<< 0).toNat =
        (0xff00 &&& a.toNat <<< 8 % 65536) ||| (0xff &&& b.toNat) := by simp
  rw [hvalue, hhigh, hlow, ← Nat.shiftLeft_add_eq_or_of_lt hb, Nat.shiftLeft_eq]

theorem toNat_parted (n : UInt16) :
    ((0xff : UInt16) &&& n >>> 0).toUInt8.toNat = n.toNat % 256 ∧
    ((0xff : UInt16) &&& n >>> 8).toUInt8.toNat = n.toNat / 256 := by
  have hn := n.toNat_lt
  have hlow (m : ℕ) : 0xff &&& m % 256 = m % 256 := by
    rw [Nat.and_comm, Nat.and_two_pow_sub_one_of_lt_two_pow (n := 8) (Nat.mod_lt m (by decide))]
  constructor
  · simpa using hlow n.toNat
  · have hbyte : n.toNat / 256 % 256 = n.toNat / 256 := Nat.mod_eq_of_lt (by omega)
    have hhigh := hlow (n.toNat / 256)
    rw [hbyte] at hhigh
    simpa [Nat.shiftRight_eq_div_pow, hbyte] using hhigh

theorem dnsKShuffle16_injective (s : UInt32) : Function.Injective (dnsKShuffle16 · s) := by
  intro n n' h
  have hjoined := congrArg UInt16.toNat h
  simp only [dnsKShuffle16, toNat_joined] at hjoined
  generalize hx : shuffleFrom 4 s _ = x at hjoined
  generalize hx' : shuffleFrom 4 s (((0xff : UInt16) &&& n' >>> 0).toUInt8, _) = x' at hjoined
  have hlt := x.2.toNat_lt
  have hlt' := x'.2.toNat_lt
  have hfst : x.1 = x'.1 := UInt8.toNat_inj.mp (by omega)
  have hsnd : x.2 = x'.2 := UInt8.toNat_inj.mp (by omega)
  have hbytes := shuffleFrom_injective 4 s (hx.trans ((Prod.ext hfst hsnd).trans hx'.symm))
  obtain ⟨hlow, hhigh⟩ := Prod.mk.inj hbytes
  have hmod := congrArg UInt8.toNat hlow
  have hdiv := congrArg UInt8.toNat hhigh
  rw [(toNat_parted n).1, (toNat_parted n').1] at hmod
  rw [(toNat_parted n).2, (toNat_parted n').2] at hdiv
  exact UInt16.toNat_inj.mp (by omega)

/-- For every seed a permutation of the numbers. -/
theorem dnsKShuffle16_bijective (s : UInt32) : Function.Bijective (dnsKShuffle16 · s) := by
  have : Finite UInt16 := Finite.of_injective UInt16.toFin fun _ _ h => UInt16.toFin_inj.mp h
  exact Finite.injective_iff_bijective.mp (dnsKShuffle16_injective s)

/-- The order of an iterator: that of the packet, or a shuffled one with the seed that the first
comparison has drawn. -/
inductive RrSort
  | packet
  | shuffle (seed : UInt32)

def RrSort.isPacket : RrSort → Bool
  | .packet => true
  | .shuffle _ => false

/-- `dns_rr_i_packet` and `dns_rr_i_shuffle`. -/
def RrSort.cmp : RrSort → DnsRr → DnsRr → ℤ
  | .packet, a, b => (a.dn.p : ℤ) - b.dn.p
  | .shuffle seed, a, b =>
    let cmp := (a.section_ : ℤ) - b.section_
    if cmp ≠ 0 then cmp
    else (dnsKShuffle16 (.ofNat a.dn.p) seed).toNat - (dnsKShuffle16 (.ofNat b.dn.p) seed).toNat

/-- An iterator that asks for no data. -/
structure DnsRrI where
  section_ : ℕ
  type : ℕ
  klass : ℕ
  name : Option (List UInt8)
  sort : RrSort

/-- What the filter on the name says; no result where the name of the record has no end. -/
def nameMatches (rr : DnsRr) (P : DnsPacket) (name : List UInt8) : Option Bool :=
  match dnsDExpand (expandTurns P) (fun _ => 0) qnameSize rr.dn.p P with
  | none => none
  | some (.error _, _) => some false
  | some (.ok len, dn) =>
    if len = 0 ∨ len ≥ qnameSize then some false
    else some (strcaseeq (bytesAt dn 0 qnameSize) name)

def dnsRrIMatch (rr : DnsRr) (i : DnsRrI) (P : DnsPacket) : Option Bool :=
  if i.section_ ≠ 0 ∧ rr.section_ &&& i.section_ = 0 then some false
  else if i.type ≠ 0 ∧ rr.type ≠ i.type ∧ i.type ≠ 255 then some false
  else if i.klass ≠ 0 ∧ rr.klass ≠ i.klass ∧ i.klass ≠ 255 then some false
  else match i.name with
    | none => some true
    | some name => nameMatches rr P name

def blankRr : DnsRr :=
  { section_ := 0, dn := ⟨0, 0⟩, type := 0, klass := 0, ttl := 0, rd := ⟨0, 0⟩ }

/-- A record with the section that it is in. -/
def recordAt (P : DnsPacket) (rp : ℕ) : Option DnsRr :=
  (dnsRrParse blankRr rp P).map fun rr => { rr with section_ := dnsRrSection rp P }

section Loops
variable (i : DnsRrI) (P : DnsPacket) (later : DnsRr → Bool)

/-- The loop before `lower`: the first matching record that `later` lets through, and where the
records behind it are. -/
def firstFrom : List ℕ → Option (Option (DnsRr × List ℕ))
  | [] => some none
  | rp :: rps =>
    match recordAt P rp with
    | none => firstFrom rps
    | some rr =>
      match dnsRrIMatch rr i P with
      | none => none
      | some found => if found ∧ later rr then some (some (rr, rps)) else firstFrom rps

/-- The loop behind `lower`. -/
def lowestFrom : DnsRr → List ℕ → Option DnsRr
  | r, [] => some r
  | r, rp :: rps =>
    match recordAt P rp with
    | none => lowestFrom r rps
    | some rr =>
      match dnsRrIMatch rr i P with
      | none => none
      | some found =>
        lowestFrom (if (found ∧ later rr) ∧ i.sort.cmp rr r < 0 then rr else r) rps

/-- Both loops, from `rp` on. -/
def lowestRr (rp : ℕ) : Option ℕ :=
  match firstFrom i P later (positionsFrom P rp) with
  | none => none
  | some none => some P.end_
  | some (some (r, rps)) =>
    if i.sort.isPacket then some r.dn.p else (lowestFrom i P later r rps).map fun r => r.dn.p

end Loops

/-- The section's base, if the filter starts with a section that is known. -/
def startBase (i : DnsRrI) (P : DnsPacket) : ℕ :=
  if i.section_ &&& 1 ≠ 0 ∧ P.qd.base ≠ 0 then P.qd.base
  else if i.section_ &&& 2 ≠ 0 ∧ P.an.base ≠ 0 then P.an.base
  else if i.section_ &&& 4 ≠ 0 ∧ P.ns.base ≠ 0 then P.ns.base
  else if i.section_ &&& 8 ≠ 0 ∧ P.ar.base ≠ 0 then P.ar.base
  else 12

def dnsRrIStart (i : DnsRrI) (P : DnsPacket) : Option ℕ :=
  lowestRr i P (fun _ => true) (startBase i P)

def dnsRrISkip (rp : ℕ) (i : DnsRrI) (P : DnsPacket) : Option ℕ :=
  match recordAt P rp with
  | none => some P.end_
  | some r0 =>
    lowestRr i P (i.sort.cmp · r0 > 0) (if i.sort.isPacket then dnsRrSkip rp P else 12)

/-- The loop of `dns_rr_grep`: at most `lim` records and where to go on. An error ends it. -/
def rrGrepFrom (i : DnsRrI) (P : DnsPacket) : ℕ → ℕ → Option (List DnsRr × ℕ)
  | 0, next => some ([], next)
  | lim + 1, next =>
    if next < P.end_ then
      match recordAt P next with
      | none => some ([], next)
      | some rr =>
        (dnsRrISkip next i P).bind fun next =>
          (rrGrepFrom i P lim next).map fun r => (rr :: r.1, r.2)
    else some ([], next)

/-- The state is where to go on, and nothing before the first call. No result where a call does not
end. -/
def dnsRrGrep (i : DnsRrI) (P : DnsPacket) (lim : ℕ) (state : Option ℕ) :
    Option (List DnsRr × Option ℕ) :=
  (state.elim (dnsRrIStart i P) some).bind fun next =>
    (rrGrepFrom i P lim next).map fun r => (r.1, some r.2)

/-- The records at some positions that the filters let through. -/
def matchesOf (i : DnsRrI) (P : DnsPacket) (rps : List ℕ) : List DnsRr :=
  rps.filterMap fun rp => (recordAt P rp).filter fun rr => dnsRrIMatch rr i P = some true

def matchesFrom (i : DnsRrI) (P : DnsPacket) (rp : ℕ) : List DnsRr :=
  matchesOf i P (positionsFrom P rp)

/-- If the iterator asks for a name, no record's name leads back into itself. -/
def NamesEnd (i : DnsRrI) (P : DnsPacket) : Prop :=
  i.name.isSome → ∀ q ∈ positionsFrom P 12, NoReturn P q

variable {P : DnsPacket} {i : DnsRrI} {rr a b : DnsRr} {base rp q n : ℕ}

theorem dnsRrParse_p {rr₀ : DnsRr} (h : dnsRrParse rr₀ rp P = some rr) : rr.dn.p = rp := by
  unfold dnsRrParse at h
  split at h
  · cases h
  · simp only [] at h
    split at h
    · cases h
    · split at h
      · cases h
        rfl
      · split at h
        · cases h
        · split at h
          · cases h
          · split at h
            · cases h
            · cases h
              rfl

theorem recordAt_p (h : recordAt P rp = some rr) : rr.dn.p = rp := by
  cases hparse : dnsRrParse blankRr rp P with
  | none =>
    rw [recordAt, hparse] at h
    cases h
  | some rr' =>
    rw [recordAt, hparse] at h
    cases h
    change rr'.dn.p = rp
    exact dnsRrParse_p hparse

/-- The order as a number, the seed's permutation within a section. -/
def RrSort.key : RrSort → DnsRr → ℕ
  | .packet, rr => rr.dn.p
  | .shuffle seed, rr => rr.section_ * 65536 + (dnsKShuffle16 (.ofNat rr.dn.p) seed).toNat

theorem RrSort.key_packet (sort : RrSort) (h : sort.isPacket) (rr : DnsRr) :
    sort.key rr = rr.dn.p := by
  cases sort with
  | packet => rfl
  | shuffle seed => cases h

theorem RrSort.cmp_lt (sort : RrSort) : sort.cmp a b < 0 ↔ sort.key a < sort.key b := by
  cases sort with
  | packet =>
    simp only [cmp, key]
    omega
  | shuffle seed =>
    have ha := (dnsKShuffle16 (.ofNat a.dn.p) seed).toNat_lt
    have hb := (dnsKShuffle16 (.ofNat b.dn.p) seed).toNat_lt
    simp only [cmp, key]
    split
    · omega
    · omega

theorem RrSort.cmp_le (sort : RrSort) : sort.cmp a b ≤ 0 ↔ sort.key a ≤ sort.key b := by
  cases sort with
  | packet =>
    simp only [cmp, key]
    omega
  | shuffle seed =>
    have ha := (dnsKShuffle16 (.ofNat a.dn.p) seed).toNat_lt
    have hb := (dnsKShuffle16 (.ofNat b.dn.p) seed).toNat_lt
    simp only [cmp, key]
    split
    · omega
    · omega

theorem RrSort.key_inj (sort : RrSort) (ha : a.dn.p < 65536) (hb : b.dn.p < 65536)
    (h : sort.key a = sort.key b) : a.dn.p = b.dn.p := by
  cases sort with
  | packet => exact h
  | shuffle seed =>
    have halt := (dnsKShuffle16 (.ofNat a.dn.p) seed).toNat_lt
    have hblt := (dnsKShuffle16 (.ofNat b.dn.p) seed).toNat_lt
    simp only [key] at h
    have hshuffled : (dnsKShuffle16 (.ofNat a.dn.p) seed).toNat =
        (dnsKShuffle16 (.ofNat b.dn.p) seed).toNat := by omega
    have heq := dnsKShuffle16_injective seed (UInt16.toNat_inj.mp hshuffled)
    have hnat := congrArg UInt16.toNat heq
    rw [UInt16.toNat_ofNat_of_lt' ha, UInt16.toNat_ofNat_of_lt' hb] at hnat
    exact hnat

theorem mem_matchesFrom : rr ∈ matchesFrom i P rp ↔
    ∃ q ∈ positionsFrom P rp, recordAt P q = some rr ∧ dnsRrIMatch rr i P = some true := by
  simp only [matchesFrom, matchesOf, List.mem_filterMap, Option.filter_eq_some_iff,
    decide_eq_true_eq]

theorem matchesFrom_pairwise (i : DnsRrI) (P : DnsPacket) (rp : ℕ) :
    (matchesFrom i P rp).Pairwise (fun a b => a.dn.p < b.dn.p) := by
  refine (positionsFrom_pairwise P rp).filterMap _ fun q q' hlt a ha b hb => ?_
  have hqa := recordAt_p (Option.filter_eq_some_iff.mp ha).1
  have hqb := recordAt_p (Option.filter_eq_some_iff.mp hb).1
  omega

/-- The walk from behind a record goes over those above it. -/
theorem positionsFrom_dnsRrSkip (hq : q ∈ positionsFrom P rp) :
    positionsFrom P (dnsRrSkip q P) = (positionsFrom P rp).filter (q < ·) := by
  induction rp using positionsFrom.induct P with
  | case1 rp hrp ih =>
    have habove : ∀ p ∈ positionsFrom P (dnsRrSkip rp P), rp < p := fun p hp =>
      lt_of_lt_of_le (lt_dnsRrSkip hrp).1 (le_of_mem_positionsFrom hp)
    rw [positionsFrom, if_pos hrp] at hq
    rw [positionsFrom.eq_def P rp, if_pos hrp]
    cases List.mem_cons.mp hq with
    | inl heq =>
      subst heq
      rw [List.filter_cons_of_neg (by simp)]
      exact (List.filter_eq_self.mpr fun p hp => by simpa using habove p hp).symm
    | inr hmem =>
      have hlt := habove q hmem
      rw [List.filter_cons_of_neg (by simpa using le_of_lt hlt)]
      exact ih hmem
  | case2 rp hrp =>
    rw [positionsFrom, if_neg hrp] at hq
    cases hq

theorem matchesFrom_dnsRrSkip (hq : q ∈ positionsFrom P rp) :
    matchesFrom i P (dnsRrSkip q P) = (matchesFrom i P rp).filter (q < ·.dn.p) := by
  rw [matchesFrom, matchesFrom, matchesOf, matchesOf, positionsFrom_dnsRrSkip hq,
    List.filterMap_filter, List.filter_filterMap]
  refine List.filterMap_congr fun p _ => ?_
  cases hrec : recordAt P p with
  | none => simp
  | some rr =>
    have hp := recordAt_p hrec
    by_cases hmatch : dnsRrIMatch rr i P = some true
    · simp [Option.filter, hmatch, hp]
    · simp [Option.filter, hmatch]

/-- The offset that the iterator keeps. -/
def offset (P : DnsPacket) : Option DnsRr → ℕ
  | none => P.end_
  | some rr => rr.dn.p

/-- What is noted of the sections is what `dns_p_study` notes, or nothing. -/
def Known (P : DnsPacket) : Prop := dnsPStudy P = P ∨ dnsPUnstudy P = P

theorem startBase_eq_first {P : DnsPacket} (hbase : startBase i P = 12) :
    ∃ n, startBase i P = studyFrom P n 12 ∧ ∀ q ∈ positionsFrom P 12, q < studyFrom P n 12 →
      i.section_ ≠ 0 ∧ dnsRrSection q P &&& i.section_ = 0 :=
  ⟨0, hbase, fun _ hq hlt => absurd (le_of_mem_positionsFrom hq) (not_le.mpr hlt)⟩

/-- The records before the base that an iterator starts at are of other sections. -/
theorem startBase_spec (hP : Known P) (i : DnsRrI) : ∃ n, startBase i P = studyFrom P n 12 ∧
    ∀ q ∈ positionsFrom P 12, q < studyFrom P n 12 →
      i.section_ ≠ 0 ∧ dnsRrSection q P &&& i.section_ = 0 := by
  cases hP with
  | inl hstudy =>
    have hqd : P.qd = { base := 12, end_ := studyFrom P (dnsPCount P 1) 12 } :=
      (congrArg DnsPacket.qd hstudy).symm
    have han := (congrArg DnsPacket.an hstudy).symm.trans (dnsPStudy_an P)
    have hns := (congrArg DnsPacket.ns hstudy).symm.trans (dnsPStudy_ns P)
    have har := (congrArg DnsPacket.ar hstudy).symm.trans (dnsPStudy_ar P)
    have hsection (q n : ℕ) (hq : q ∈ positionsFrom P 12) (hlt : q < studyFrom P n 12) :
        ∃ k < n, dnsRrSection q P = sectionOf P k :=
      ⟨_, (lt_studyFrom_iff hq).mp hlt,
        (congrArg (dnsRrSection q) hstudy).symm.trans (dnsRrSection_dnsPStudy hq)⟩
    have hpos (n : ℕ) : studyFrom P n 12 ≠ 0 :=
      Nat.pos_iff_ne_zero.mp (lt_of_lt_of_le (by decide) (le_studyFrom n 12))
    by_cases h1 : i.section_ &&& 1 ≠ 0
    · refine startBase_eq_first ?_
      rw [startBase, hqd]
      exact if_pos ⟨h1, Nat.succ_ne_zero 11⟩
    rw [not_not] at h1
    by_cases h2 : i.section_ &&& 2 ≠ 0
    · have hne : i.section_ ≠ 0 := fun h => h2 (by rw [h]; rfl)
      refine ⟨dnsPCount P 1, ?_, fun q hq hlt => ⟨hne, ?_⟩⟩
      · rw [startBase, if_neg (fun h => h.1 h1), han, if_pos ⟨h2, hpos _⟩]
      · obtain ⟨k, hk, hsec⟩ := hsection q _ hq hlt
        rw [hsec, sectionOf, if_pos hk, Nat.and_comm, h1]
    rw [not_not] at h2
    by_cases h4 : i.section_ &&& 4 ≠ 0
    · have hne : i.section_ ≠ 0 := fun h => h4 (by rw [h]; rfl)
      refine ⟨dnsPCount P 1 + dnsPCount P 2, ?_, fun q hq hlt => ⟨hne, ?_⟩⟩
      · rw [startBase, if_neg (fun h => h.1 h1), if_neg (fun h => h.1 h2), hns,
          if_pos ⟨h4, hpos _⟩]
      · obtain ⟨k, hk, hsec⟩ := hsection q _ hq hlt
        rw [hsec, sectionOf, if_pos hk, Nat.and_comm]
        split
        · exact h1
        · exact h2
    rw [not_not] at h4
    by_cases h8 : i.section_ &&& 8 ≠ 0
    · have hne : i.section_ ≠ 0 := fun h => h8 (by rw [h]; rfl)
      refine ⟨dnsPCount P 1 + dnsPCount P 2 + dnsPCount P 4, ?_, fun q hq hlt => ⟨hne, ?_⟩⟩
      · rw [startBase, if_neg (fun h => h.1 h1), if_neg (fun h => h.1 h2),
          if_neg (fun h => h.1 h4), har, if_pos ⟨h8, hpos _⟩]
      · obtain ⟨k, hk, hsec⟩ := hsection q _ hq hlt
        rw [hsec, sectionOf, if_pos hk, Nat.and_comm]
        split
        · exact h1
        · split
          · exact h2
          · exact h4
    rw [not_not] at h8
    refine startBase_eq_first ?_
    rw [startBase, if_neg (fun h => h.1 h1), if_neg (fun h => h.1 h2), if_neg (fun h => h.1 h4),
      if_neg (fun h => h.1 h8)]
  | inr hunstudy =>
    refine startBase_eq_first ?_
    rw [← hunstudy]
    simp [startBase, dnsPUnstudy]

theorem matchesFrom_startBase (hP : Known P) (i : DnsRrI) :
    matchesFrom i P (startBase i P) = matchesFrom i P 12 := by
  obtain ⟨n, hbase, hbefore⟩ := startBase_spec hP i
  have hnone : ((positionsFrom P 12).take n).filterMap
      (fun rp => (recordAt P rp).filter fun rr => dnsRrIMatch rr i P = some true) = [] := by
    refine List.filterMap_eq_nil_iff.mpr fun q hq => ?_
    obtain ⟨hsection, hother⟩ := hbefore q (List.mem_of_mem_take hq) (lt_studyFrom_of_mem_take hq)
    cases hparse : dnsRrParse blankRr q P with
    | none => simp [recordAt, hparse]
    | some rr => simp [recordAt, hparse, Option.filter, dnsRrIMatch, hsection, hother]
  rw [hbase, matchesFrom, matchesFrom, matchesOf, matchesOf, positionsFrom_studyFrom]
  nth_rewrite 2 [← List.take_append_drop n (positionsFrom P 12)]
  rw [List.filterMap_append, hnone, List.nil_append]

theorem lowest_head (key : DnsRr → ℕ) {r : DnsRr} {l : List DnsRr}
    (h : (r :: l).Pairwise (fun a b => key a < key b)) : Selection.lowest key r l = r := by
  induction l with
  | nil => rfl
  | cons a l ih =>
    obtain ⟨hr, hl⟩ := List.pairwise_cons.mp h
    have hnot : ¬key a < key r := not_lt.mpr (le_of_lt (hr a List.mem_cons_self))
    rw [Selection.lowest, if_neg hnot]
    exact ih (List.pairwise_cons.mpr
      ⟨fun b hb => hr b (List.mem_cons_of_mem a hb), (List.pairwise_cons.mp hl).2⟩)

section Found
variable {later : DnsRr → Bool} {rps : List ℕ} {r : DnsRr}

/-- At these positions the filters always give a result. -/
def Decided (i : DnsRrI) (P : DnsPacket) (rps : List ℕ) : Prop :=
  ∀ rp ∈ rps, ∀ rr, recordAt P rp = some rr → ∃ found, dnsRrIMatch rr i P = some found

theorem dnsRrIMatch_ends (h : i.name.isSome → NoReturn P rr.dn.p) :
    ∃ found, dnsRrIMatch rr i P = some found := by
  unfold dnsRrIMatch
  split
  next => exact ⟨false, rfl⟩
  next =>
    split
    next => exact ⟨false, rfl⟩
    next =>
      split
      next => exact ⟨false, rfl⟩
      next =>
        cases hname : i.name with
        | none => exact ⟨true, rfl⟩
        | some name =>
          have hend : NoReturn P rr.dn.p := h (hname ▸ rfl)
          obtain ⟨r, hr⟩ : ∃ r, dnsDExpand (expandTurns P) (fun _ => 0) qnameSize rr.dn.p P = some r :=
            hend.ends _ (le_refl (expandTurns P))
          simp only [nameMatches, hr]
          split
          next hnone => cases hnone
          next => exact ⟨false, rfl⟩
          next => exact ⟨_, (apply_ite some _ _ _).symm⟩

theorem NamesEnd.decided (h : NamesEnd i P) : Decided i P (positionsFrom P 12) :=
  fun _ hq _ hrec => dnsRrIMatch_ends fun hname => recordAt_p hrec ▸ h hname _ hq

theorem Decided.subset {rps' : List ℕ} (h : Decided i P rps) (hsub : rps' ⊆ rps) :
    Decided i P rps' := fun rp hrp => h rp (hsub hrp)

theorem matchesOf_none (h : recordAt P rp = none) (rps : List ℕ) :
    matchesOf i P (rp :: rps) = matchesOf i P rps :=
  List.filterMap_cons_none (by rw [h]; rfl)

theorem matchesOf_some (h : recordAt P rp = some rr) {found : Bool}
    (hfound : dnsRrIMatch rr i P = some found) (rps : List ℕ) :
    matchesOf i P (rp :: rps) = if found then rr :: matchesOf i P rps else matchesOf i P rps := by
  cases found with
  | false => exact List.filterMap_cons_none (by rw [h]; simp [Option.filter, hfound])
  | true => exact List.filterMap_cons_some (by rw [h]; simp [Option.filter, hfound])

variable (later)

/-- The first loop finds the first of the records that match and are let through. -/
theorem firstFrom_eq (hrps : Decided i P rps) :
    match (matchesOf i P rps).filter later with
    | [] => firstFrom i P later rps = some none
    | r :: l => ∃ rest ⊆ rps, firstFrom i P later rps = some (some (r, rest)) ∧
      (matchesOf i P rest).filter later = l := by
  induction rps with
  | nil => rfl
  | cons rp rps ih =>
    have hrest := hrps.subset (List.subset_cons_self rp rps)
    have hskip (heq : firstFrom i P later (rp :: rps) = firstFrom i P later rps)
        (hsame : (matchesOf i P (rp :: rps)).filter later = (matchesOf i P rps).filter later) :
        match (matchesOf i P (rp :: rps)).filter later with
        | [] => firstFrom i P later (rp :: rps) = some none
        | r :: l => ∃ rest ⊆ rp :: rps, firstFrom i P later (rp :: rps) = some (some (r, rest)) ∧
          (matchesOf i P rest).filter later = l := by
      have hfound := ih hrest
      rw [hsame, heq]
      split at hfound
      next => exact hfound
      next =>
        obtain ⟨rest, hsub, hfirst⟩ := hfound
        exact ⟨rest, fun _ hmem => List.mem_cons_of_mem rp (hsub hmem), hfirst⟩
    cases hrec : recordAt P rp with
    | none =>
      refine hskip ?_ ?_
      · rw [firstFrom, hrec]
      · rw [matchesOf_none hrec]
    | some rr =>
      obtain ⟨found, hfound⟩ := hrps rp List.mem_cons_self rr hrec
      by_cases hin : found ∧ later rr
      · have hhere : (matchesOf i P (rp :: rps)).filter later =
            rr :: (matchesOf i P rps).filter later := by
          rw [matchesOf_some hrec hfound, if_pos hin.1, List.filter_cons_of_pos hin.2]
        rw [hhere]
        refine ⟨rps, List.subset_cons_self rp rps, ?_, rfl⟩
        simp only [firstFrom, hrec, hfound, if_pos hin]
      · refine hskip ?_ ?_
        · simp only [firstFrom, hrec, hfound, if_neg hin]
        · rw [matchesOf_some hrec hfound]
          split
          next hmatch => rw [List.filter_cons_of_neg fun hlater => hin ⟨hmatch, hlater⟩]
          next => rfl

theorem lowestFrom_eq (hrps : Decided i P rps) : lowestFrom i P later r rps =
    some (Selection.lowest i.sort.key r ((matchesOf i P rps).filter later)) := by
  induction rps generalizing r with
  | nil => rfl
  | cons rp rps ih =>
    have hrest := hrps.subset (List.subset_cons_self rp rps)
    cases hrec : recordAt P rp with
    | none => rw [lowestFrom, hrec, matchesOf_none hrec, ← ih hrest]
    | some rr =>
      obtain ⟨found, hfound⟩ := hrps rp List.mem_cons_self rr hrec
      simp only [lowestFrom, hrec, hfound, matchesOf_some hrec hfound, ih hrest, i.sort.cmp_lt]
      by_cases hin : found ∧ later rr
      · rw [if_pos hin.1, List.filter_cons_of_pos hin.2, Selection.lowest]
        simp only [hin, and_self, true_and]
      · rw [if_neg fun h => hin h.1]
        split
        next hmatch => rw [List.filter_cons_of_neg fun hlater => hin ⟨hmatch, hlater⟩]
        next => rfl

/-- Both loops find the lowest record that is let through. -/
theorem lowestRr_eq (hrps : Decided i P (positionsFrom P rp)) : lowestRr i P later rp =
    some (offset P (Selection.start i.sort.key ((matchesFrom i P rp).filter later))) := by
  have hfirst := firstFrom_eq later hrps
  have hsorted := (matchesFrom_pairwise i P rp).filter later
  rw [lowestRr, matchesFrom] at *
  cases hl : (matchesOf i P (positionsFrom P rp)).filter later with
  | nil =>
    rw [hl] at hfirst
    rw [hfirst]
    rfl
  | cons r l =>
    rw [hl] at hfirst hsorted
    obtain ⟨rest, hsub, hfound, hrest⟩ := hfirst
    rw [hfound]
    cases hsort : i.sort with
    | packet =>
      change some r.dn.p = some (Selection.lowest RrSort.packet.key r l).dn.p
      rw [lowest_head RrSort.packet.key hsorted]
    | shuffle seed =>
      have hlowest := lowestFrom_eq later (r := r) (hrps.subset hsub)
      rw [hrest, hsort] at hlowest
      simp only [RrSort.isPacket, hlowest]
      rfl

end Found

theorem dnsRrIStart_eq (hP : Known P) (hnames : NamesEnd i P) :
    dnsRrIStart i P = some (offset P (Selection.start i.sort.key (matchesFrom i P 12))) := by
  have hsub : positionsFrom P (startBase i P) ⊆ positionsFrom P 12 := by
    obtain ⟨n, hbase, -⟩ := startBase_spec hP i
    rw [hbase, positionsFrom_studyFrom]
    exact List.drop_subset n _
  rw [dnsRrIStart, lowestRr_eq _ (hnames.decided.subset hsub), matchesFrom_startBase hP,
    List.filter_true]

/-- The lowest record above the last one, if it is looked for behind that or from the first on. -/
theorem dnsRrISkip_eq (hnames : NamesEnd i P) {r : DnsRr} (hr : r ∈ matchesFrom i P 12) :
    dnsRrISkip r.dn.p i P =
      some (offset P (Selection.skip i.sort.key (matchesFrom i P 12) r)) := by
  obtain ⟨q, hq, hrec, hmatch⟩ := mem_matchesFrom.mp hr
  have hp : r.dn.p = q := recordAt_p hrec
  have habove : (fun a => decide (i.sort.cmp a r > 0)) =
      fun a => decide (i.sort.key r < i.sort.key a) :=
    funext fun a => decide_eq_decide.mpr (lt_iff_lt_of_le_iff_le i.sort.cmp_le)
  simp only [dnsRrISkip, hp, hrec, habove]
  by_cases hsort : i.sort.isPacket
  · have hsub : positionsFrom P (dnsRrSkip q P) ⊆ positionsFrom P 12 := by
      rw [positionsFrom_dnsRrSkip hq]
      exact List.filter_subset_self _
    have hbehind : ∀ a, (decide (i.sort.key r < i.sort.key a) && decide (q < a.dn.p)) =
        decide (i.sort.key r < i.sort.key a) := fun a => by
      rw [i.sort.key_packet hsort, i.sort.key_packet hsort, hp, Bool.and_self]
    rw [if_pos hsort, lowestRr_eq _ (hnames.decided.subset hsub), matchesFrom_dnsRrSkip hq,
      List.filter_filter, Selection.skip]
    simp only [hbehind]
  · rw [if_neg hsort, lowestRr_eq _ hnames.decided]
    rfl

theorem rrGrepFrom_end {next : ℕ} (h : P.end_ ≤ next) (n : ℕ) :
    rrGrepFrom i P n next = some ([], next) := by
  cases n with
  | zero => rfl
  | succ n => rw [rrGrepFrom, if_neg (not_lt.mpr h)]

/-- The records that a call finds, and where it ends. -/
theorem rrGrepFrom_visits (hnames : NamesEnd i P) {o : Option DnsRr}
    (ho : ∀ r ∈ o, r ∈ matchesFrom i P 12) (n : ℕ) : rrGrepFrom i P n (offset P o) =
      some (Selection.visits i.sort.key (matchesFrom i P 12) n o,
        offset P (Selection.after i.sort.key (matchesFrom i P 12) n o)) := by
  induction n generalizing o with
  | zero => rfl
  | succ n ih =>
    cases o with
    | none => exact rrGrepFrom_end (le_refl P.end_) (n + 1)
    | some r =>
      have hr := ho r rfl
      obtain ⟨q, hq, hrec, hmatch⟩ := mem_matchesFrom.mp hr
      have hp : r.dn.p = q := recordAt_p hrec
      have hlt : q < P.end_ := lt_end_of_mem_positionsFrom hq
      have hnext := dnsRrISkip_eq hnames hr
      rw [hp] at hnext
      have hlater : ∀ r' ∈ Selection.skip i.sort.key (matchesFrom i P 12) r,
          r' ∈ matchesFrom i P 12 := fun r' hr' =>
        (List.mem_filter.mp (Selection.start_eq_some hr').1).1
      rw [offset, hp, rrGrepFrom, if_pos hlt, hrec]
      simp only [hnext, Option.bind_some, ih hlater]
      rfl

theorem matchesFrom_nodup (i : DnsRrI) (P : DnsPacket) (rp : ℕ) : (matchesFrom i P rp).Nodup :=
  (matchesFrom_pairwise i P rp).imp fun hlt heq => absurd (congrArg (·.dn.p) heq) (ne_of_lt hlt)

theorem matchesFrom_key_inj (i : DnsRrI) (P : DnsPacket) : ∀ a ∈ matchesFrom i P 12,
    ∀ b ∈ matchesFrom i P 12, i.sort.key a = i.sort.key b → a = b := by
  intro a ha b hb hkey
  obtain ⟨q, hq, hreca, -⟩ := mem_matchesFrom.mp ha
  obtain ⟨q', hq', hrecb, -⟩ := mem_matchesFrom.mp hb
  have hlt (p : ℕ) (hp : p ∈ positionsFrom P 12) : p < 65536 := by
    have hend := lt_end_of_mem_positionsFrom hp
    have hle := P.end_le
    have hsize := P.size_le
    omega
  have hqq := i.sort.key_inj (recordAt_p hreca ▸ hlt q hq) (recordAt_p hrecb ▸ hlt q' hq') hkey
  rw [recordAt_p hreca, recordAt_p hrecb] at hqq
  subst hqq
  exact Option.some.inj (hreca.symm.trans hrecb)

/-- Whatever the order and the limits of the calls, they go through the matching records once, each
call where the last one has ended. -/
theorem dnsRrGrep_finds_each_once (hP : Known P) (hnames : NamesEnd i P) :
    ∃ order : List DnsRr, order.Perm (matchesFrom i P 12) ∧
      order.Pairwise (fun a b => i.sort.cmp a b < 0) ∧
      ∀ lims, Selection.calls (dnsRrGrep i P) lims none = some (lims.splitLengths order) := by
  have hcall (n : ℕ) (o : Option DnsRr) (ho : ∀ r ∈ o, r ∈ matchesFrom i P 12) :
      dnsRrGrep i P n (some (offset P o)) =
        some (Selection.visits i.sort.key (matchesFrom i P 12) n o,
          some (offset P (Selection.after i.sort.key (matchesFrom i P 12) n o))) := by
    rw [dnsRrGrep, Option.elim_some, Option.bind_some, rrGrepFrom_visits hnames ho]
    rfl
  obtain ⟨order, hperm, hsorted, hcalls⟩ := Selection.calls_divided (dnsRrGrep i P)
    (some ∘ offset P) id hcall (matchesFrom_nodup i P 12) (matchesFrom_key_inj i P)
  refine ⟨order, hperm, hsorted.imp fun hlt => i.sort.cmp_lt.mpr hlt, fun lims => ?_⟩
  -- the first call begins with what a later one goes on with
  have hfirst : Selection.calls (dnsRrGrep i P) lims none = Selection.calls (dnsRrGrep i P) lims
      (some (offset P (Selection.start i.sort.key (matchesFrom i P 12)))) := by
    cases lims with
    | nil => rfl
    | cons n lims =>
      rw [Selection.calls, Selection.calls, dnsRrGrep, dnsRrGrep, Option.elim_none,
        dnsRrIStart_eq hP hnames]
      rfl
  rw [hfirst]
  exact (hcalls lims).trans (congrArg some (List.map_id _))

theorem dnsRrGrep_finds_each_once_fourRecords :
    let i : DnsRrI := { section_ := 14, type := 0, klass := 1, name := some [97, 46],
                        sort := .shuffle 7 }
    ∃ order : List DnsRr, order.Perm (matchesFrom i (dnsPStudy fourRecords) 12) ∧
      order.Pairwise (fun a b => i.sort.cmp a b < 0) ∧
      ∀ lims, Selection.calls (dnsRrGrep i (dnsPStudy fourRecords)) lims none =
        some (lims.splitLengths order) := by
  refine dnsRrGrep_finds_each_once (.inl (dnsPStudy_dnsPStudy fourRecords)) fun _ q hq => ?_
  rw [(sameBytes_dnsPStudy fourRecords).positionsFrom, positionsFrom_fourRecords] at hq
  have hends : ∀ q ∈ [12, 19, 32, 44],
      Walk.walk (behindLabel (dnsPStudy fourRecords)) 57 q = none := by
    decide +kernel
  exact noReturn_iff.mpr (hends q hq)

end Suil.Dns
