import Suil.Lib.CText
import Suil.Dns.Packet

/-! How names go into a packet: `dns_d_comp`, `dns_p_dictadd` and `dns_d_push`. No result means
that a loop is not over after `fuel` rounds. -/
namespace Suil.Dns
open CText (strcaseeq)

/-- The variables `dst` and `src` of `dns_d_comp`. -/
structure Comp where
  b : Bytes
  p : ℕ
  x : ℕ
  srcP : ℕ
  srcX : ℕ

/-- The first loop of `dns_d_comp`, over the characters that are left. -/
def dnsDCompFrom (lim : ℕ) : List UInt8 → Comp → Comp
  | [], s => s
  | ch :: src, s =>
    if ch = '.'.toUInt8 then
      dnsDCompFrom lim src
        { b := put s.b lim s.p (.ofNat (0x3f &&& (s.srcX - s.srcP))), p := s.x, x := s.x + 1,
          srcP := s.srcX + 1, srcX := s.srcX + 1 }
    else
      dnsDCompFrom lim src
        { s with b := put s.b lim s.x ch, x := s.x + 1, srcX := s.srcX + 1 }

/-- The last label, where no dot follows it, and the root. -/
def dnsDCompLast (lim : ℕ) (s : Comp) : Bytes × ℕ :=
  let s := if s.srcX > s.srcP then
      { s with b := put s.b lim s.p (.ofNat (0x3f &&& (s.srcX - s.srcP))), p := s.x }
    else s
  if s.p > 1 then (put s.b lim s.p 0, s.p + 1) else (s.b, s.p)

def putPointer (dst : Bytes) (ap bp : ℕ) : Bytes :=
  let dst := Function.update dst ap (0xc0 ||| .ofNat (0x3f &&& bp >>> 8))
  Function.update dst (ap + 1) (.ofNat (0xff &&& bp))

section Compress
variable (fuel : ℕ) (dst : Bytes) (lim : ℕ) (P : DnsPacket)

/-- Both names go on until a label is missing or different. -/
def matchFrom : ℕ → List UInt8 × ℕ → List UInt8 × ℕ → Option (List UInt8 × List UInt8)
  | 0, _, _ => none
  | fuel + 1, a, b =>
    if a.1 ≠ [] ∧ b.1 ≠ [] ∧ strcaseeq a.1 b.1 then
      matchFrom fuel (dnsLExpand dst lim a.2) (dnsLExpand P.data P.end_ b.2)
    else some (a.1, b.1)

/-- The labels of one name of the dictionary: where the rest of the new name is found, and
`a.label` as it is left behind. -/
def scanFrom (ax : ℕ) : ℕ → List UInt8 → ℕ → Option (Option ℕ × List UInt8)
  | 0, _, _ => none
  | n + 1, a, bp =>
    let b := dnsLExpand P.data P.end_ bp
    if b.1 = [] then some (none, a)
    else (matchFrom dst lim P fuel (a, ax) b).bind fun r =>
      if r.1 = [] ∧ r.2 = [] ∧ bp ≤ 0x3fff then some (some bp, r.1) else scanFrom ax n r.1 b.2

/-- The names of the dictionary, up to the first free slot. -/
def scanDict (ax : ℕ) : List ℕ → List UInt8 → Option (Option ℕ)
  | [], _ => some none
  | bp :: dict, a =>
    if bp = 0 then some none
    else (scanFrom fuel dst lim P ax fuel a bp).bind fun r =>
      match r.1 with
      | some bp => some (some bp)
      | none => scanDict ax dict r.2

/-- The labels of the new name: the buffer with the pointer in it and the end of that, if a
pointer is put. -/
def compressFrom : ℕ → ℕ → Option (Option (Bytes × ℕ))
  | 0, _ => none
  | n + 1, ap =>
    let a := dnsLExpand dst lim ap
    if a.1 = [] then some none
    else (scanDict fuel dst lim P a.2 P.dict a.1).bind fun r =>
      match r with
      | some bp => some (some (putPointer dst ap bp, ap + 2))
      | none => compressFrom n a.2

end Compress

/-- The buffer and the length; there is no name where the length is zero. -/
def dnsDComp (fuel : ℕ) (dst : Bytes) (lim : ℕ) (src : List UInt8) (P : DnsPacket) :
    Option (Bytes × ℕ) :=
  let r := dnsDCompLast lim (dnsDCompFrom lim src { b := dst, p := 0, x := 1, srcP := 0, srcX := 0 })
  if r.2 < lim then (compressFrom fuel r.1 lim P fuel 0).map fun c => c.getD r else some r

/-- The slot that holds the position, before the first free one. -/
def slotOf (lptr : ℕ) : List ℕ → Option ℕ
  | [] => none
  | d :: dict => if d = 0 then none else if d = lptr then some 0 else (slotOf lptr dict).map (· + 1)

theorem lt_dnsLSkip {data : Bytes} {end_ src : ℕ} (h : src < end_) :
    src < dnsLSkip data end_ src := by
  rw [dnsLSkip, if_neg (by omega)]
  split
  · split
    · exact h
    · split
      · omega
      · exact h
  · exact h
  · exact h

/-- The loop of `dns_p_dictadd` over the name: the slot that is taken over. -/
def dictSlot (P : DnsPacket) (dn lp : ℕ) : Option ℕ :=
  if lp < P.end_ then
    if 0xc0 = 0xc0 &&& P.data lp ∧ P.end_ - lp ≥ 2 ∧ lp ≠ dn then
      match slotOf (target P.data lp) P.dict with
      | some i => some i
      | none => dictSlot P dn (dnsLSkip P.data P.end_ lp)
    else dictSlot P dn (dnsLSkip P.data P.end_ lp)
  else none
termination_by P.end_ - lp
decreasing_by
  all_goals
    have hskip : lp < dnsLSkip P.data P.end_ lp := lt_dnsLSkip ‹lp < P.end_›
    omega

def dnsPDictadd (P : DnsPacket) (dn : ℕ) : DnsPacket :=
  match dictSlot P dn dn with
  | some i => { P with dict := P.dict.set i dn, dict_length := by rw [List.length_set, P.dict_length] }
  | none =>
    -- past the last slot nothing is set
    { P with dict := P.dict.set (P.dict.idxOf 0) dn,
             dict_length := by rw [List.length_set, P.dict_length] }

/-- The bytes from `dp` on are those of the buffer. -/
def withBuffer (data : Bytes) (dp : ℕ) (dst : Bytes) : Bytes :=
  fun q => if q < dp then data q else dst (q - dp)

def dnsDPush (fuel : ℕ) (P : DnsPacket) (dn : List UInt8) : Option (Option DnsErrno × DnsPacket) :=
  (dnsDComp fuel (fun i => P.data (P.end_ + i)) (P.size - P.end_) dn P).map fun (r : Bytes × ℕ) =>
    let data := withBuffer P.data P.end_ r.1
    if r.2 = 0 then (some .DNS_EILLEGAL, { P with data })
    else if h : r.2 > P.size - P.end_ then (some .DNS_ENOBUFS, { P with data })
    else
      have hend : P.end_ + r.2 ≤ P.size := by have := P.end_le; omega
      (none, dnsPDictadd { P with end_ := P.end_ + r.2, data, end_le := hend } P.end_)

end Suil.Dns
