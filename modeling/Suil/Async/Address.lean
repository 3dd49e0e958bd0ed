import Suil.Lib.CText
import Mathlib.Data.Int.Notation
import Mathlib.Data.Nat.Notation
import Mathlib.Data.List.Basic
import Mathlib.Algebra.Ring.Nat
import Mathlib.Algebra.Ring.Int.Defs
import Mathlib.Tactic.SplitIfs

/-! `SocketAddress`: literals, the wildcard and `local`. Ports are in the byte order of the host;
`inet_pton` is given. What is returned comes with the `errno` that is left. -/
namespace Suil.Async.Address
open CText (Str cString)

def EINVAL : ℕ := 22
def ENODEV : ℕ := 19
def EADDRNOTAVAIL : ℕ := 99

abbrev In4 := UInt32

structure In6 where
  addr : BitVec 128
  flowinfo : UInt32
  scope_id : UInt32
  deriving DecidableEq

/-- An address of either family. -/
inductive Ip
  | inet (a : In4)
  | inet6 (a : In6)
  deriving DecidableEq

inductive SocketAddress
  | unspec
  | inet (sin_addr : In4) (sin_port : UInt16)
  | inet6 (sin6_addr : In6) (sin6_port : UInt16)
  deriving DecidableEq

namespace SocketAddress

/-- `port()`; an address without a family is all zeros. -/
def port : SocketAddress → ℤ
  | unspec => 0
  | inet _ p => p.toNat
  | inet6 _ p => p.toNat

/-- `operator bool`. -/
def isValid (a : SocketAddress) : Bool := a ≠ unspec

def ip : SocketAddress → Option Ip
  | unspec => none
  | inet a _ => some (.inet a)
  | inet6 a _ => some (.inet6 a)

end SocketAddress

inductive Mode
  | IP_ANY
  | IPV4
  | IPV6
  | IP_PV4
  | IP_PV6
  deriving DecidableEq

/-- The conversion of a port to 16 bits. -/
def htons (port : ℤ) : UInt16 := .ofNat (port % 2 ^ 16).toNat

def invalidPort (port : ℤ) : Prop := port < 0 ∨ port > 0xffff

instance (port : ℤ) : Decidable (invalidPort port) := inferInstanceAs (Decidable (_ ∨ _))

/-- `inet_pton` for each family. -/
structure Pton where
  inet : Str → Option In4
  inet6 : Str → Option In6

section Literal
variable (pton : Pton)

def ipv4FromLiteral (addr : Str) (port : ℤ) : SocketAddress × ℕ :=
  match pton.inet addr with
  | some sin_addr => (.inet sin_addr (htons port), 0)
  | none => (.unspec, EINVAL)

def ipv6FromLiteral (addr : Str) (port : ℤ) : SocketAddress × ℕ :=
  match pton.inet6 addr with
  | some sin6_addr => (.inet6 sin6_addr (htons port), 0)
  | none => (.unspec, EINVAL)

def ipFromLiteral (addr : Str) (port : ℤ) (mode : Mode) : SocketAddress × ℕ :=
  if invalidPort port then (.unspec, EINVAL)
  else
    match mode with
    | .IPV4 => ipv4FromLiteral pton addr port
    | .IPV6 => ipv6FromLiteral pton addr port
    | .IP_ANY | .IP_PV4 =>
      let ipAddr := ipv4FromLiteral pton addr port
      if ipAddr.2 = 0 then ipAddr else ipv6FromLiteral pton addr port
    | .IP_PV6 =>
      let ipAddr := ipv6FromLiteral pton addr port
      if ipAddr.2 = 0 then ipAddr else ipv4FromLiteral pton addr port

end Literal

def INADDR_ANY : In4 := 0

def in6addr_any : In6 := ⟨0, 0, 0⟩

def any (port : ℤ) (mode : Mode) : SocketAddress × ℕ :=
  if invalidPort port then (.unspec, EINVAL)
  else if mode = .IP_ANY ∨ mode = .IPV4 ∨ mode = .IP_PV4 then (.inet INADDR_ANY (htons port), 0)
  else (.inet6 in6addr_any (htons port), 0)

inductive Sockaddr
  | inet (a : In4)
  | inet6 (a : In6)
  | other

structure Ifaddrs where
  ifa_name : Str
  ifa_addr : Option Sockaddr

inductive Exception
  | system_error (errno : ℕ) (what : String)
  | runtime_error (what : String)

inductive Outcome
  | returned (addr : SocketAddress) (errno : ℕ)
  | thrown (e : Exception)
  | aborted

/-- The loop over the interfaces; `none` if an assertion fails. -/
def findFirst (name : Str) (ipv4 : Option In4) (ipv6 : Option In6) :
    List Ifaddrs → Option (Option In4 × Option In6)
  | [] => some (ipv4, ipv6)
  | it :: rest =>
    match it.ifa_addr with
    | none => findFirst name ipv4 ipv6 rest
    | some sa =>
      if it.ifa_name ≠ name then findFirst name ipv4 ipv6 rest
      else
        match sa with
        | .inet a =>
          if ipv4.isSome then none
          else if ipv6.isSome then some (some a, ipv6)
          else findFirst name (some a) ipv6 rest
        | .inet6 a =>
          if ipv6.isSome then none
          else if ipv4.isSome then some (ipv4, some a)
          else findFirst name ipv4 (some a) rest
        | .other =>
          if ipv4.isSome ∧ ipv6.isSome then some (ipv4, ipv6) else findFirst name ipv4 ipv6 rest

/-- The addresses that the mode leaves. -/
def choose {α β : Type*} (mode : Mode) (ipv4 : Option α) (ipv6 : Option β) :
    Option α × Option β :=
  match mode with
  | .IPV4 => (ipv4, none)
  | .IPV6 => (none, ipv6)
  | .IP_ANY | .IP_PV4 => if ipv4.isSome then (ipv4, none) else (ipv4, ipv6)
  | .IP_PV6 => if ipv6.isSome then (none, ipv6) else (ipv4, ipv6)

/-- The end of `local`, with what the mode has left. -/
def finish (port : ℤ) : Option In4 × Option In6 → SocketAddress × ℕ
  | (some a, _) => (.inet a (htons port), 0)
  | (none, some a) => (.inet6 a (htons port), 0)
  | (none, none) => (.unspec, ENODEV)

/-- `SocketAddress::local`, with what `getifaddrs` gives or the error that it fails with. -/
def localAddress (pton : Pton) (name : Str) (port : ℤ) (mode : Mode)
    (getifaddrs : Except ℕ (List Ifaddrs)) : Outcome :=
  if name = [] then
    let addr := any port mode
    .returned addr.1 addr.2
  else
    let addr := ipFromLiteral pton (cString name) port mode
    if addr.2 = 0 then .returned addr.1 addr.2
    else
      match getifaddrs with
      | .error errno => .thrown (.system_error errno "getifaddrs(...)")
      | .ok [] => .thrown (.runtime_error "getifaddrs returned 0 interfaces")
      | .ok ifaces =>
        match findFirst (cString name) none none ifaces with
        | none => .aborted
        | some found =>
          let addr := finish port (choose mode found.1 found.2)
          .returned addr.1 addr.2

/-- The address of the family that the mode demands, or of the preferred one and else of the
other. -/
def Mode.prefers (mode : Mode) (ipv4 : Option In4) (ipv6 : Option In6) : Option Ip :=
  match mode with
  | .IPV4 => ipv4.map .inet
  | .IPV6 => ipv6.map .inet6
  | .IP_ANY | .IP_PV4 => (ipv4.map .inet).or (ipv6.map .inet6)
  | .IP_PV6 => (ipv6.map .inet6).or (ipv4.map .inet)

/-- The address that an interface has in this entry. -/
def Ifaddrs.ip? (name : Str) (it : Ifaddrs) : Option Ip :=
  if it.ifa_name = name then
    it.ifa_addr.bind fun sa =>
      match sa with
      | .inet a => some (.inet a)
      | .inet6 a => some (.inet6 a)
      | .other => none
  else none

/-- The addresses of the interface, in order. -/
def addresses (name : Str) (ifaces : List Ifaddrs) : List Ip := ifaces.filterMap (Ifaddrs.ip? name)

def Ip.inet? : Ip → Option In4
  | inet a => some a
  | inet6 _ => none

def Ip.inet6? : Ip → Option In6
  | inet _ => none
  | inet6 a => some a

/-- The address that the name stands for: the wildcard if it is empty, a literal, or the first
one of an interface. -/
def denoted (pton : Pton) (name : Str) (mode : Mode) (ifaces : List Ifaddrs) : Option Ip :=
  if name = [] then mode.prefers (some INADDR_ANY) (some in6addr_any)
  else
    let ips := addresses (cString name) ifaces
    (mode.prefers (pton.inet (cString name)) (pton.inet6 (cString name))).or
      (mode.prefers (ips.findSome? Ip.inet?) (ips.findSome? Ip.inet6?))

/-- No abort; a valid result has the port and the address that were asked for, any other one
comes with an error. -/
def Picked (port : ℤ) (ip : Option Ip) : Outcome → Prop
  | .returned addr errno =>
    (addr.isValid → addr.port = port ∧ addr.ip = ip) ∧ (¬ addr.isValid → errno ≠ 0)
  | .thrown _ => True
  | .aborted => False

/-- The second address of the interface is not of the family of the first. -/
def OneEach (ips : List Ip) : Prop :=
  ∀ a b rest, ips = a :: b :: rest → a.inet?.isSome ≠ b.inet?.isSome

/-- The name is empty, or a literal of the mode with a port that is one, or no second address of
a family is met and, if the port is none, no address that the mode admits. -/
def Plain (pton : Pton) (name : Str) (port : ℤ) (mode : Mode) (ifaces : List Ifaddrs) : Prop :=
  let ips := addresses (cString name) ifaces
  name = [] ∨
    (¬ invalidPort port ∧ mode.prefers (pton.inet (cString name)) (pton.inet6 (cString name)) ≠ none) ∨
      (OneEach ips ∧ (invalidPort port →
        mode.prefers (ips.findSome? Ip.inet?) (ips.findSome? Ip.inet6?) = none))

def Ip.socket (port : ℤ) : Ip → SocketAddress
  | inet a => .inet a (htons port)
  | inet6 a => .inet6 a (htons port)

/-- The address, if there is one, with the port. -/
def answer (port : ℤ) (errno : ℕ) : Option Ip → SocketAddress × ℕ
  | some ip => (ip.socket port, 0)
  | none => (.unspec, errno)

section Answer
variable {port : ℤ} {errno : ℕ} {ip : Option Ip} {mode : Mode}

theorem ipFromLiteral_eq (pton : Pton) (addr : Str) (mode : Mode) (h : ¬ invalidPort port) :
    ipFromLiteral pton addr port mode =
      answer port EINVAL (mode.prefers (pton.inet addr) (pton.inet6 addr)) := by
  unfold ipFromLiteral ipv4FromLiteral ipv6FromLiteral
  rw [if_neg h]
  cases mode <;> cases pton.inet addr <;> cases pton.inet6 addr <;> rfl

theorem any_eq (mode : Mode) (h : ¬ invalidPort port) :
    any port mode = answer port EINVAL (mode.prefers (some INADDR_ANY) (some in6addr_any)) := by
  unfold any
  rw [if_neg h]
  cases mode <;> rfl

theorem finish_choose (mode : Mode) (ipv4 : Option In4) (ipv6 : Option In6) :
    finish port (choose mode ipv4 ipv6) = answer port ENODEV (mode.prefers ipv4 ipv6) := by
  cases mode <;> cases ipv4 <;> cases ipv6 <;> rfl

theorem port_htons (h : ¬ invalidPort port) : ((htons port).toNat : ℤ) = port := by
  have hrange : 0 ≤ port ∧ port ≤ 0xffff := by
    unfold invalidPort at h
    omega
  have hlt : (port % 2 ^ 16).toNat < 2 ^ 16 := by omega
  rw [htons, UInt16.toNat_ofNat_of_lt' hlt]
  omega

theorem htons_ne (h : invalidPort port) : ((htons port).toNat : ℤ) ≠ port := by
  have hlt := (htons port).toNat_lt
  unfold invalidPort at h
  omega

theorem Ip.port_socket (ip : Ip) : (ip.socket port).port = (htons port).toNat := by
  cases ip with
  | inet a => rfl
  | inet6 a => rfl

theorem Ip.ip_socket (ip : Ip) : (ip.socket port).ip = some ip := by
  cases ip with
  | inet a => rfl
  | inet6 a => rfl

theorem Ip.isValid_socket (ip : Ip) : (ip.socket port).isValid = true := by
  cases ip with
  | inet a => rfl
  | inet6 a => rfl

theorem picked_unspec (h : errno ≠ 0) : Picked port ip (.returned .unspec errno) :=
  ⟨fun hvalid => absurd hvalid (by decide), fun _ => h⟩

theorem picked_answer (h : ¬ invalidPort port) (he : errno ≠ 0) :
    Picked port ip (.returned (answer port errno ip).1 (answer port errno ip).2) := by
  cases ip with
  | none => exact picked_unspec he
  | some ip =>
    refine ⟨fun _ => ⟨?_, ip.ip_socket⟩, fun hno => absurd ip.isValid_socket hno⟩
    exact ip.port_socket.trans (port_htons h)

/-- A port that is none is only right where there is no address for it. -/
theorem picked_answer_iff {found : Option Ip} (h : invalidPort port) (he : errno ≠ 0) :
    Picked port ip (.returned (answer port errno found).1 (answer port errno found).2) ↔
      found = none := by
  cases found with
  | none => exact iff_of_true (picked_unspec he) rfl
  | some a =>
    refine iff_of_false (fun hp => ?_) (Option.some_ne_none a)
    exact htons_ne h (a.port_socket.symm.trans (hp.1 a.isValid_socket).1)

end Answer

/-- The loop over the interfaces, on the addresses of the one that is named. -/
def findIps (ipv4 : Option In4) (ipv6 : Option In6) : List Ip → Option (Option In4 × Option In6)
  | [] => some (ipv4, ipv6)
  | .inet a :: ips =>
    if ipv4.isSome then none
    else if ipv6.isSome then some (some a, ipv6)
    else findIps (some a) ipv6 ips
  | .inet6 a :: ips =>
    if ipv6.isSome then none
    else if ipv4.isSome then some (ipv4, some a)
    else findIps ipv4 (some a) ips

section Interfaces
variable {name : Str} {ipv4 : Option In4} {ipv6 : Option In6} {ifaces : List Ifaddrs}
  {ips : List Ip}

theorem findFirst_eq (h : ¬ (ipv4.isSome ∧ ipv6.isSome)) :
    findFirst name ipv4 ipv6 ifaces = findIps ipv4 ipv6 (addresses name ifaces) := by
  induction ifaces generalizing ipv4 ipv6 with
  | nil => rfl
  | cons it ifaces ih =>
    have haddresses : addresses name (it :: ifaces) =
        (it.ip? name).toList ++ addresses name ifaces := by
      unfold addresses
      cases hip : it.ip? name with
      | none => rw [List.filterMap_cons_none hip]; rfl
      | some ip => rw [List.filterMap_cons_some hip]; rfl
    rw [haddresses]
    unfold findFirst Ifaddrs.ip?
    cases hsa : it.ifa_addr with
    | none =>
      simp only [Option.bind_none, ite_self]
      exact ih h
    | some sa =>
      by_cases hname : it.ifa_name = name
      · simp only [hname, ne_eq, not_true_eq_false, if_false, if_true, Option.bind_some]
        cases sa with
        | other =>
          simp only [if_neg h]
          exact ih h
        | inet a =>
          simp only [Option.toList_some, List.cons_append, List.nil_append, findIps]
          split_ifs with h4 h6
          · rfl
          · rfl
          · exact ih fun hboth => h6 hboth.2
        | inet6 a =>
          simp only [Option.toList_some, List.cons_append, List.nil_append, findIps]
          split_ifs with h6 h4
          · rfl
          · rfl
          · exact ih fun hboth => h4 hboth.1
      · simp only [hname, ne_eq, not_false_eq_true, if_true, if_false]
        exact ih h

/-- Two addresses of one family end the search before the other family is seen. -/
theorem findIps_cases (ips : List Ip) :
    OneEach ips ∧ findIps none none ips = some (ips.findSome? Ip.inet?, ips.findSome? Ip.inet6?) ∨
      ¬ OneEach ips ∧ findIps none none ips = none := by
  have htwo : ∀ a b rest, a.inet?.isSome ≠ b.inet?.isSome ↔ OneEach (a :: b :: rest) := by
    intro a b rest
    constructor
    · intro hne a' b' rest' heq
      cases heq
      exact hne
    · exact fun h => h a b rest rfl
  match ips with
  | [] => exact .inl ⟨nofun, rfl⟩
  | [.inet a] => exact .inl ⟨nofun, rfl⟩
  | [.inet6 a] => exact .inl ⟨nofun, rfl⟩
  | .inet a :: .inet6 b :: rest => exact .inl ⟨(htwo _ _ _).mp (fun h => by cases h), rfl⟩
  | .inet6 a :: .inet b :: rest => exact .inl ⟨(htwo _ _ _).mp (fun h => by cases h), rfl⟩
  | .inet a :: .inet b :: rest => exact .inr ⟨mt (htwo _ _ _).mpr fun h => h rfl, rfl⟩
  | .inet6 a :: .inet6 b :: rest => exact .inr ⟨mt (htwo _ _ _).mpr fun h => h rfl, rfl⟩

end Interfaces

/-- What `local` does when the name is no literal, or the port is none. -/
theorem localAddress_interface {pton : Pton} {name : Str} {port : ℤ} {mode : Mode}
    {ifaces : List Ifaddrs} (hname : name ≠ [])
    (hliteral : (ipFromLiteral pton (cString name) port mode).2 ≠ 0) :
    let ips := addresses (cString name) ifaces
    (ifaces = [] ∧ localAddress pton name port mode (.ok ifaces) =
        .thrown (.runtime_error "getifaddrs returned 0 interfaces")) ∨
      (¬ OneEach ips ∧ localAddress pton name port mode (.ok ifaces) = .aborted) ∨
      (OneEach ips ∧ localAddress pton name port mode (.ok ifaces) =
        .returned
          (answer port ENODEV (mode.prefers (ips.findSome? Ip.inet?) (ips.findSome? Ip.inet6?))).1
          (answer port ENODEV (mode.prefers (ips.findSome? Ip.inet?) (ips.findSome? Ip.inet6?))).2) := by
  intro ips
  unfold localAddress
  simp only [if_neg hname, if_neg hliteral]
  cases ifaces with
  | nil => exact .inl ⟨rfl, rfl⟩
  | cons it ifaces =>
    have hnot : ¬ ((none : Option In4).isSome ∧ (none : Option In6).isSome) := nofun
    simp only [findFirst_eq hnot]
    rcases findIps_cases (addresses (cString name) (it :: ifaces)) with ⟨hone, hfind⟩ | ⟨hone, hfind⟩
    · refine .inr (.inr ⟨hone, ?_⟩)
      simp only [hfind, finish_choose]
      rfl
    · refine .inr (.inl ⟨hone, ?_⟩)
      simp only [hfind]

/-- A literal is taken only with a port that is one. -/
theorem literal_of_errno {pton : Pton} {addr : Str} {port : ℤ} {mode : Mode}
    (h : (ipFromLiteral pton addr port mode).2 = 0) :
    ¬ invalidPort port ∧ ∃ ip, mode.prefers (pton.inet addr) (pton.inet6 addr) = some ip := by
  have herrno : EINVAL ≠ 0 := by decide
  by_cases hport : invalidPort port
  · unfold ipFromLiteral at h
    rw [if_pos hport] at h
    exact absurd h herrno
  · rw [ipFromLiteral_eq pton addr mode hport] at h
    cases hip : mode.prefers (pton.inet addr) (pton.inet6 addr) with
    | none =>
      rw [hip] at h
      exact absurd h herrno
    | some ip => exact ⟨hport, ip, rfl⟩

theorem literal_none {pton : Pton} {addr : Str} {port : ℤ} {mode : Mode}
    (h : (ipFromLiteral pton addr port mode).2 ≠ 0) (hport : ¬ invalidPort port) :
    mode.prefers (pton.inet addr) (pton.inet6 addr) = none := by
  rw [ipFromLiteral_eq pton addr mode hport] at h
  cases hip : mode.prefers (pton.inet addr) (pton.inet6 addr) with
  | none => rfl
  | some ip =>
    rw [hip] at h
    exact absurd rfl h

theorem Mode.prefers_none (mode : Mode) : mode.prefers none none = none := by
  cases mode <;> rfl

theorem picked_iff (pton : Pton) (name : Str) (port : ℤ) (mode : Mode) (ifaces : List Ifaddrs) :
    Picked port (denoted pton name mode ifaces) (localAddress pton name port mode (.ok ifaces)) ↔
      Plain pton name port mode ifaces := by
  unfold Plain denoted
  by_cases hname : name = []
  · subst hname
    refine iff_of_true ?_ (.inl rfl)
    unfold localAddress
    rw [if_pos rfl, if_pos rfl]
    by_cases hport : invalidPort port
    · rw [any, if_pos hport]
      exact picked_unspec (by decide)
    · rw [any_eq mode hport]
      exact picked_answer hport (by decide)
  · simp only [hname, if_false, false_or]
    by_cases hliteral : (ipFromLiteral pton (cString name) port mode).2 = 0
    · obtain ⟨hport, ip, hip⟩ := literal_of_errno hliteral
      refine iff_of_true ?_ (.inl ⟨hport, hip ▸ Option.some_ne_none ip⟩)
      unfold localAddress
      simp only [hname, if_false, hliteral, if_true]
      rw [ipFromLiteral_eq pton (cString name) mode hport, hip, Option.some_or]
      exact picked_answer hport (by decide)
    · have hnone : ¬ invalidPort port →
          mode.prefers (pton.inet (cString name)) (pton.inet6 (cString name)) = none :=
        literal_none hliteral
      have hfirst : ¬ (¬ invalidPort port ∧
          mode.prefers (pton.inet (cString name)) (pton.inet6 (cString name)) ≠ none) :=
        fun h => h.2 (hnone h.1)
      simp only [hfirst, false_or]
      have hcases := @localAddress_interface pton name port mode ifaces hname hliteral
      rcases hcases with ⟨rfl, heq⟩ | ⟨hone, heq⟩ | ⟨hone, heq⟩
      · rw [heq]
        exact iff_of_true trivial ⟨nofun, fun _ => mode.prefers_none⟩
      · rw [heq]
        exact iff_of_false id fun h => hone h.1
      · rw [heq]
        by_cases hport : invalidPort port
        · rw [picked_answer_iff hport (by decide)]
          exact ⟨fun h => ⟨hone, fun _ => h⟩, fun h => h.2 hport⟩
        · rw [hnone hport, Option.none_or]
          exact iff_of_true (picked_answer hport (by decide)) ⟨hone, fun h => absurd h hport⟩

/-- An interface with two IPv4 addresses. -/
theorem not_picked_alias : ¬ ∀ (pton : Pton) (name : Str) (port : ℤ) (mode : Mode)
    (ifaces : List Ifaddrs), Picked port (denoted pton name mode ifaces)
      (localAddress pton name port mode (.ok ifaces)) := by
  intro h
  exact h ⟨fun _ => none, fun _ => none⟩ ("eth0".toList.map Char.toUInt8) 80 .IPV4
    [⟨"eth0".toList.map Char.toUInt8, some (.inet 1)⟩,
      ⟨"eth0".toList.map Char.toUInt8, some (.inet 2)⟩]

end Suil.Async.Address
