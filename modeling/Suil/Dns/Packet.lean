import Mathlib.Data.Nat.Notation
import Mathlib.Logic.Function.Basic

/-! Domain names in a packet: `dns_l_expand`, `dns_l_skip`, `dns_d_skip` and `dns_d_expand`. A
packet has at most 65535 bytes, so that a position fits an `unsigned short`. -/
namespace Suil.Dns

/-- Memory from a base address on. -/
abbrev Bytes := ℕ → UInt8

inductive DnsErrno
  | DNS_ENOBUFS
  | DNS_EILLEGAL
  deriving DecidableEq

/-- Where a section is known to stand; nothing is known while both are zero. -/
structure DnsSMemo where
  base : ℕ
  end_ : ℕ

structure DnsPacket where
  dict : List ℕ
  qd : DnsSMemo
  an : DnsSMemo
  ns : DnsSMemo
  ar : DnsSMemo
  size : ℕ
  end_ : ℕ
  data : Bytes
  dict_length : dict.length = 16
  end_le : end_ ≤ size
  size_le : size ≤ 65535

/-- A packet with room for `size` bytes, whatever stands in the memory. -/
def dnsPInit (size : ℕ) (data : Bytes) (hmin : 12 ≤ size) (hmax : size ≤ 65535) : DnsPacket where
  dict := List.replicate 16 0
  qd := { base := 0, end_ := 0 }
  an := { base := 0, end_ := 0 }
  ns := { base := 0, end_ := 0 }
  ar := { base := 0, end_ := 0 }
  size := size
  end_ := 12
  data q := if q < 12 then 0 else data q
  dict_length := List.length_replicate
  end_le := hmin
  size_le := hmax

/-- What the two high bits of a byte announce. -/
inductive Lead
  | follows (len : ℕ)
  | reserved
  | pointer
  deriving DecidableEq

def lead (b : UInt8) : Lead :=
  if (0x03 : UInt8) &&& b >>> 6 = 0x00 then .follows (0x3f &&& b).toNat
  else if (0x03 : UInt8) &&& b >>> 6 = 0x03 then .pointer
  else .reserved

def target (data : Bytes) (src : ℕ) : ℕ :=
  (0x3f &&& data src).toNat <<< 8 ||| (0xff &&& data (src + 1)).toNat

/-- `len` bytes from `src` on. -/
def bytesAt (data : Bytes) (src len : ℕ) : List UInt8 := (List.range len).map fun k => data (src + k)

/-- `dns_l_expand` when `hops` more pointers may be followed: the label, empty at the root and
where there is none, and `*nxt`. The buffer has room for every label. -/
def dnsLExpandFrom (data : Bytes) (end_ : ℕ) (hops src : ℕ) : List UInt8 × ℕ :=
  if end_ ≤ src then ([], end_)
  else match lead (data src) with
    | .follows len =>
      if end_ - (src + 1) < len then ([], end_) else (bytesAt data (src + 1) len, src + 1 + len)
    | .reserved => ([], end_)
    | .pointer =>
      match hops with
      | 0 => ([], end_)
      | hops + 1 =>
        if end_ - src < 2 then ([], end_) else dnsLExpandFrom data end_ hops (target data src)

/-- With at most `DNS_D_MAXPTRS` pointers before a label. -/
def dnsLExpand (data : Bytes) (end_ src : ℕ) : List UInt8 × ℕ := dnsLExpandFrom data end_ 127 src

def dnsLSkip (data : Bytes) (end_ src : ℕ) : ℕ :=
  if end_ ≤ src then end_
  else match lead (data src) with
    | .follows len =>
      if end_ - (src + 1) < len then end_ else if len ≠ 0 then src + 1 + len else end_
    | .reserved => end_
    | .pointer => end_

def dnsDSkip (P : DnsPacket) (src : ℕ) : ℕ :=
  if src < P.end_ then
    match lead (P.data src) with
    | .follows len =>
      if len = 0 then src + 1
      else if P.end_ - (src + 1) > len then dnsDSkip P (src + 1 + len)
      else P.end_
    | .reserved => P.end_
    | .pointer => if P.end_ - src < 2 then P.end_ else src + 2
  else P.end_
termination_by P.end_ - src

/-- A byte that is written only below the limit. -/
def put (dst : Bytes) (lim i : ℕ) (b : UInt8) : Bytes :=
  if i < lim then Function.update dst i b else dst

def putAll (dst : Bytes) (lim : ℕ) : ℕ → List UInt8 → Bytes
  | _, [] => dst
  | i, b :: bs => putAll (put dst lim i b) lim (i + 1) bs

/-- The terminating NUL, over the last byte if there is no room for it. -/
def terminate (dst : Bytes) (lim i : ℕ) : Bytes :=
  if lim > 0 then Function.update dst (min i (lim - 1)) 0 else dst

/-- How a round of the loop of `dns_d_expand` ends: with an error or the length of the text, or with
what the next round begins with. -/
inductive Round
  | ended (r : Except DnsErrno ℕ)
  | goesOn (src dstp nptrs : ℕ)

/-- A round of the loop of `dns_d_expand`, and the buffer it leaves. -/
def dnsDExpandRound (lim : ℕ) (P : DnsPacket) (dst : Bytes) (src dstp nptrs : ℕ) : Bytes × Round :=
  let illegal := (terminate dst lim dstp, .ended (.error .DNS_EILLEGAL))
  if src < P.end_ then
    match lead (P.data src) with
    | .follows len =>
      if len = 0 then
        if dstp = 0 then
          (terminate (put dst lim dstp '.'.toUInt8) lim (dstp + 1), .ended (.ok (dstp + 1)))
        else (terminate dst lim dstp, .ended (.ok dstp))
      else if P.end_ - (src + 1) < len then illegal
      else
        let dst := putAll dst lim dstp (bytesAt P.data (src + 1) len)
        let dst := put dst lim (dstp + len) '.'.toUInt8
        (dst, .goesOn (src + 1 + len) (dstp + len + 1) 0)
    | .reserved => illegal
    | .pointer =>
      if nptrs + 1 > 127 then illegal
      else if P.end_ - src < 2 then illegal
      else (dst, .goesOn (target P.data src) dstp (nptrs + 1))
  else illegal

/-- The loop of `dns_d_expand`, which is not over after `fuel` rounds if there is no result. -/
def dnsDExpandFrom (lim : ℕ) (P : DnsPacket) :
    ℕ → Bytes → ℕ → ℕ → ℕ → Option (Except DnsErrno ℕ × Bytes)
  | 0, _, _, _, _ => none
  | fuel + 1, dst, src, dstp, nptrs =>
    match dnsDExpandRound lim P dst src dstp nptrs with
    | (dst, .ended r) => some (r, dst)
    | (dst, .goesOn src dstp nptrs) => dnsDExpandFrom lim P fuel dst src dstp nptrs

/-- The buffer after `n` rounds, or when the loop is over. -/
def dnsDExpandBuffer (lim : ℕ) (P : DnsPacket) : ℕ → Bytes → ℕ → ℕ → ℕ → Bytes
  | 0, dst, _, _, _ => dst
  | n + 1, dst, src, dstp, nptrs =>
    match dnsDExpandRound lim P dst src dstp nptrs with
    | (dst, .ended _) => dst
    | (dst, .goesOn src dstp nptrs) => dnsDExpandBuffer lim P n dst src dstp nptrs

def dnsDExpand (fuel : ℕ) (dst : Bytes) (lim src : ℕ) (P : DnsPacket) :
    Option (Except DnsErrno ℕ × Bytes) :=
  dnsDExpandFrom lim P fuel dst src 0 0

/-- Enough turns for every name of the packet that ends. -/
def expandTurns (P : DnsPacket) : ℕ := 128 * (P.end_ + 2)

/-- `DNS_D_MAXNAME + 1`, the size of a buffer for a name. -/
def qnameSize : ℕ := 256

end Suil.Dns
