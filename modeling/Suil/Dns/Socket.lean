import Suil.Dns.Iterator
import Suil.Dns.Comp
import Suil.Lib.Transition
import Mathlib.Data.List.Nodup
import Mathlib.Data.List.Perm.Basic

/-! The socket of the resolver: a query and its answer over UDP and, where that is cut off, over
TCP. A call of `dns_so_check` is a run of turns, and a reply holds what the kernel answers in one
of them. The statistics, the clock and the addresses are left out, and there is no callback for
closing. -/
namespace Suil.Dns
open CText (cString tolower strcaseeq)

inductive SoError
  | DNS_EAGAIN
  | DNS_EINTR
  | DNS_EINPROGRESS
  | DNS_EALREADY
  | DNS_EISCONN
  | DNS_EUNKNOWN
  | packet (error : DnsErrno)
  | system (errno : ℕ)
  deriving DecidableEq

inductive SoType
  | any
  | SOCK_STREAM
  | SOCK_DGRAM
  deriving DecidableEq

/-- `unset` is what a reset leaves. -/
inductive SoState
  | unset
  | DNS_SO_UDP_INIT
  | DNS_SO_UDP_CONN
  | DNS_SO_UDP_SEND
  | DNS_SO_UDP_RECV
  | DNS_SO_UDP_DONE
  | DNS_SO_TCP_INIT
  | DNS_SO_TCP_CONN
  | DNS_SO_TCP_SEND
  | DNS_SO_TCP_RECV
  | DNS_SO_TCP_DONE
  deriving DecidableEq

/-- `struct dns_socket`. No descriptor is -1 and no packet a null pointer; `padding` are the two
bytes in front of the answer. -/
structure DnsSocket where
  udp : Option ℕ
  tcp : Option ℕ
  old : List ℕ
  olim : ℕ
  type : SoType
  state : SoState
  qid : ℕ
  qname : Bytes
  qlen : ℕ
  qtype : ℕ
  qclass : ℕ
  query : Option DnsPacket
  qout : ℕ
  answer : Option DnsPacket
  padding : Bytes
  alen : ℕ
  apos : ℕ

def qid (P : DnsPacket) : ℕ := (P.data 0).toNat + (P.data 1).toNat <<< 8

/-- The answer was cut off. -/
def tc (P : DnsPacket) : Bool := P.data 2 &&& 0x02 ≠ 0

/-- What `dns_socketclose` is told to close. -/
def DnsSocket.owned (so : DnsSocket) : List ℕ := so.udp.toList ++ so.tcp.toList ++ so.old

def dnsSoReset (so : DnsSocket) : DnsSocket :=
  { so with
    state := .unset, qid := 0, qname := fun _ => 0, qlen := 0, qtype := 0, qclass := 0,
    query := none, qout := 0, answer := none, padding := fun _ => 0, alen := 0, apos := 0 }

/-- `realloc` keeps the bytes of the answer that was there. -/
def dnsSoNewanswer (so : DnsSocket) (len : ℕ) (hlen : len ≤ 65535) (realloc : Option SoError) :
    Except SoError DnsSocket :=
  match realloc with
  | some errno => .error errno
  | none => .ok { so with
      answer := some (dnsPInit (max len 768) (so.answer.elim (fun _ => 0) (·.data))
        (Nat.le_trans (by decide) (Nat.le_max_right len 768)) (Nat.max_le.mpr ⟨hlen, by decide⟩))
      padding := fun _ => 0 }

/-- The query is given an id if it has none. -/
def withQid (Q : DnsPacket) (mkqid : UInt16) : DnsPacket :=
  if qid Q = 0 then
    { Q with
      data q := if q = 0 then mkqid.toUInt8 else if q = 1 then (mkqid >>> 8).toUInt8 else Q.data q }
  else Q

/-- No result where the name of the question has no end. -/
def dnsSoSubmit (so : DnsSocket) (Q : DnsPacket) (mkqid : UInt16) (realloc : Option SoError) :
    Option (Option SoError × DnsSocket) :=
  let so := dnsSoReset so
  match dnsRrParse blankRr 12 Q with
  | none => some (some (.packet .DNS_EILLEGAL), so)
  | some rr =>
    match dnsDExpand (expandTurns Q) so.qname qnameSize rr.dn.p Q with
    | none => none
    | some (.error error, _) => some (some (.packet error), so)
    | some (.ok qlen, qname) =>
      match dnsSoNewanswer so 768 (by decide) realloc with
      | .error errno => some (some errno, so)
      | .ok so =>
        let Q := withQid Q mkqid
        some (none, { so with
          qname, qlen, qtype := rr.type, qclass := rr.klass, query := some Q, qout := 0,
          qid := qid Q
          state := if so.type = .SOCK_STREAM then .DNS_SO_TCP_INIT else .DNS_SO_UDP_INIT })

/-- Whether `P` answers the query; no result where its name has no end. -/
def dnsSoVerify (so : DnsSocket) (P : DnsPacket) : Option (Option SoError) :=
  if so.qid ≠ qid P then some (some .DNS_EUNKNOWN)
  else if dnsPCount P 1 = 0 then some (some .DNS_EUNKNOWN)
  else match dnsRrParse blankRr 12 P with
    | none => some (some .DNS_EUNKNOWN)
    | some rr =>
      if rr.type ≠ so.qtype ∨ rr.klass ≠ so.qclass then some (some .DNS_EUNKNOWN)
      else match dnsDExpand (expandTurns P) (fun _ => 0) qnameSize rr.dn.p P with
        | none => none
        | some (.error error, _) => some (some (.packet error))
        | some (.ok qlen, qname) =>
          if qlen ≥ qnameSize ∨ qlen ≠ so.qlen then some (some .DNS_EUNKNOWN)
          else if strcaseeq (bytesAt so.qname 0 qnameSize) (bytesAt qname 0 qnameSize) then
            some none
          else some (some .DNS_EUNKNOWN)

/-- The TCP descriptor is closed later on. -/
def dnsSoClosefd (so : DnsSocket) (realloc : Option SoError) : Except SoError DnsSocket :=
  match so.tcp with
  | none => .ok so
  | some fd =>
    if so.old.length < so.olim then .ok { so with old := so.old ++ [fd], tcp := none }
    else match realloc with
      | some errno => .error errno
      | none => .ok { so with old := so.old ++ [fd], olim := max 4 (so.olim * 2), tcp := none }

/-- A query as TCP carries it: its length and its bytes. -/
def frame (Q : DnsPacket) (k : ℕ) : UInt8 :=
  if k = 0 then UInt8.ofNat (Q.end_ >>> 8) else if k = 1 then UInt8.ofNat Q.end_ else Q.data (k - 2)

/-- What the kernel answers in one turn: a count or a descriptor, the bytes that `recv` has
written, whether the peer of the connection is the one to ask, and whether memory ran out. -/
structure Reply where
  rc : Except SoError ℕ
  bytes : Bytes
  keep : Bool
  realloc : Option SoError

/-- Where a call of `dns_so_check` is: not under way since the query was submitted or at its end,
in the `switch`, or in the loop of `dns_so_tcp_send` or `dns_so_tcp_recv`. -/
inductive Control
  | out
  | returned (error : Option SoError)
  | switch
  | sending (qsrc : ℕ)
  | receiving
  deriving DecidableEq

/-- The labels `soerr` and `error`. -/
def raise (so : DnsSocket) : SoError → DnsSocket × Control
  | .DNS_EINTR => (so, .switch)
  | .DNS_EINPROGRESS => (so, .returned (some .DNS_EAGAIN))
  | .DNS_EALREADY => (so, .returned (some .DNS_EAGAIN))
  | error => (so, .returned (some error))

/-- What `recv` makes of the answer: a datagram, or as much of it as fits. -/
def datagram (A : DnsPacket) (bytes : Bytes) (n : ℕ) : DnsPacket :=
  { A with
    data := fun q => if q < min n A.size then bytes q else A.data q
    end_ := min n A.size
    end_le := Nat.min_le_right n A.size }

theorem be16_le (data : Bytes) (p : ℕ) : be16 data p ≤ 65535 := by
  have hhigh : (0xff &&& data p).toNat <<< 8 < 2 ^ 16 := by
    rw [Nat.shiftLeft_eq]
    exact Nat.mul_lt_mul_of_pos_right (UInt8.toNat_lt _) (by decide)
  have hlow : (0xff &&& data (p + 1)).toNat < 2 ^ 16 :=
    Nat.lt_trans (UInt8.toNat_lt _) (by decide)
  exact Nat.le_of_lt_succ (Nat.or_lt_two_pow hhigh hlow)

/-- One turn of the `switch`; a case falls through to the next one. There is no result where a null
pointer is followed, or where `dns_so_verify` does not come back. -/
def dnsSoSwitch (r : Reply) (so : DnsSocket) : Option (DnsSocket × Control) :=
  match so.state with
  | .unset => some (raise so .DNS_EUNKNOWN)
  | .DNS_SO_UDP_INIT => some ({ so with state := .DNS_SO_UDP_CONN }, .switch)
  | .DNS_SO_UDP_CONN =>
    match r.rc with
    | .error errno => some (raise so errno)
    | .ok _ => some ({ so with state := .DNS_SO_UDP_SEND }, .switch)
  | .DNS_SO_UDP_SEND =>
    match so.query, r.rc with
    | none, _ => none
    | some _, .error errno => some (raise so errno)
    | some _, .ok _ => some ({ so with state := .DNS_SO_UDP_RECV }, .switch)
  | .DNS_SO_UDP_RECV =>
    match so.answer, r.rc with
    | none, _ => none
    | some _, .error errno => some (raise so errno)
    | some A, .ok n =>
      let A := datagram A r.bytes n
      let so := { so with answer := some A }
      -- what is not an answer to the query is thrown away, and the next one is waited for
      if A.end_ < 12 then some (so, .switch)
      else (dnsSoVerify so A).map fun error =>
        if error = none then ({ so with state := .DNS_SO_UDP_DONE }, .switch) else (so, .switch)
  | .DNS_SO_UDP_DONE => so.answer.map fun A =>
    if ¬tc A ∨ so.type = .SOCK_DGRAM then (so, .returned none)
    else ({ so with state := .DNS_SO_TCP_INIT }, .switch)
  | .DNS_SO_TCP_INIT =>
    if so.tcp ≠ none ∧ r.keep then some ({ so with state := .DNS_SO_TCP_SEND }, .switch)
    else match dnsSoClosefd so r.realloc with
      | .error errno => some (raise so errno)
      | .ok so =>
        match r.rc with
        | .error errno => some (raise so errno)
        | .ok fd => some ({ so with tcp := some fd, state := .DNS_SO_TCP_CONN }, .switch)
  | .DNS_SO_TCP_CONN =>
    match r.rc with
    | .error errno =>
      if errno ≠ .DNS_EISCONN then some (raise so errno)
      else some ({ so with state := .DNS_SO_TCP_SEND }, .switch)
    | .ok _ => some ({ so with state := .DNS_SO_TCP_SEND }, .switch)
  | .DNS_SO_TCP_SEND => some (so, .sending so.qout)
  | .DNS_SO_TCP_RECV => some (so, .receiving)
  | .DNS_SO_TCP_DONE =>
    match if so.type = .SOCK_STREAM then .ok so else dnsSoClosefd so r.realloc with
    | .error errno => some (raise so errno)
    | .ok so => so.answer.bind fun A =>
      if A.end_ < 12 then some (so, .returned (some (.packet .DNS_EILLEGAL)))
      else (dnsSoVerify so A).map fun error => error.elim (so, .returned none) (raise so)

/-- One turn of `dns_so_tcp_send`. -/
def dnsSoTcpSend (r : Reply) (so : DnsSocket) (qsrc : ℕ) : Option (DnsSocket × Control) :=
  so.query.map fun Q =>
    if so.qout < Q.end_ + 2 then
      match r.rc with
      | .error errno => raise so errno
      | .ok n => ({ so with qout := so.qout + min n (Q.end_ + 2 - so.qout) }, .sending qsrc)
    else ({ so with state := .DNS_SO_TCP_RECV }, .switch)

/-- What `recv` writes from `data[apos - 2]` on. -/
def segment (so : DnsSocket) (A : DnsPacket) (bytes : Bytes) (n : ℕ) : DnsSocket :=
  { so with
    padding := fun k => if so.apos ≤ k ∧ k < so.apos + n then bytes (k - so.apos) else so.padding k
    answer := some { A with
      data := fun q =>
        if so.apos ≤ q + 2 ∧ q + 2 < so.apos + n then bytes (q + 2 - so.apos) else A.data q }
    apos := so.apos + n }

/-- One turn of `dns_so_tcp_recv`. -/
def dnsSoTcpRecv (r : Reply) (so : DnsSocket) : Option (DnsSocket × Control) :=
  so.answer.bind fun A =>
    if so.apos < so.alen + 2 then
      match r.rc with
      | .error errno => some (raise so errno)
      | .ok n =>
        if n = 0 then some (raise so .DNS_EUNKNOWN)
        else
          let so := segment so A r.bytes (min n (so.alen + 2 - so.apos))
          if so.alen = 0 ∧ so.apos ≥ 2 then
            match dnsSoNewanswer so (be16 so.padding 0) (be16_le so.padding 0) r.realloc with
            | .error errno => some (raise so errno)
            | .ok so' => some ({ so' with alen := be16 so.padding 0 }, .receiving)
          else some (so, .receiving)
    else if h : so.alen ≤ A.size then
      some ({ so with
        answer := some { A with end_ := so.alen, end_le := h }
        state := .DNS_SO_TCP_DONE }, .switch)
    else none

def turn (r : Reply) (so : DnsSocket) : Control → Option (DnsSocket × Control)
  | .out => none
  | .returned _ => none
  | .switch => dnsSoSwitch r so
  | .sending qsrc => dnsSoTcpSend r so qsrc
  | .receiving => dnsSoTcpRecv r so

/-- The answer, while it is there. -/
def dnsSoFetch (so : DnsSocket) : Option (DnsPacket × DnsSocket) :=
  match so.state with
  | .DNS_SO_UDP_DONE => so.answer.map fun A => (A, { so with answer := none })
  | .DNS_SO_TCP_DONE => so.answer.map fun A => (A, { so with answer := none })
  | _ => none

/-! What a turn can do. -/

/-- A call that ends with an error or starts again. -/
def Fails (c : Control) : Prop := c = .switch ∨ ∃ error, c = .returned (some error)

variable {so so' so₁ : DnsSocket} {c c' : Control} {r : Reply} {realloc error : Option SoError}

theorem raise_spec (so : DnsSocket) (error : SoError) :
    ∃ c, raise so error = (so, c) ∧ Fails c := by
  cases error with
  | DNS_EINTR => exact ⟨.switch, rfl, .inl rfl⟩
  | DNS_EINPROGRESS => exact ⟨_, rfl, .inr ⟨_, rfl⟩⟩
  | DNS_EALREADY => exact ⟨_, rfl, .inr ⟨_, rfl⟩⟩
  | DNS_EAGAIN => exact ⟨_, rfl, .inr ⟨_, rfl⟩⟩
  | DNS_EISCONN => exact ⟨_, rfl, .inr ⟨_, rfl⟩⟩
  | DNS_EUNKNOWN => exact ⟨_, rfl, .inr ⟨_, rfl⟩⟩
  | packet error => exact ⟨_, rfl, .inr ⟨_, rfl⟩⟩
  | system errno => exact ⟨_, rfl, .inr ⟨_, rfl⟩⟩

/-- The TCP descriptor is among those to close later. -/
def DnsSocket.retired (so : DnsSocket) (olim : ℕ) : DnsSocket :=
  { so with tcp := none, old := so.old ++ so.tcp.toList, olim }

theorem dnsSoClosefd_eq (h : dnsSoClosefd so realloc = .ok so₁) :
    ∃ olim, so₁ = so.retired olim := by
  unfold dnsSoClosefd at h
  split at h
  next htcp =>
    cases h
    exact ⟨so.olim, by rw [DnsSocket.retired, htcp, Option.toList_none, List.append_nil, ← htcp]⟩
  next fd htcp =>
    split at h
    next =>
      cases h
      exact ⟨so.olim, by rw [DnsSocket.retired, htcp]; rfl⟩
    next =>
      cases realloc with
      | some errno => cases h
      | none =>
        cases h
        exact ⟨max 4 (so.olim * 2), by rw [DnsSocket.retired, htcp]; rfl⟩

/-- The outcomes of a turn. -/
inductive Turns (r : Reply) (so : DnsSocket) : Control → DnsSocket → Control → Prop
  | raised {c c' : Control} (h : Fails c') : Turns r so c so c'
  | moves {st : SoState} (hrecv : so.state ≠ .DNS_SO_TCP_RECV) (hdone : so.state ≠ .DNS_SO_TCP_DONE)
      (hunset : so.state ≠ .unset) (hst : st ≠ .unset ∧ st ≠ .DNS_SO_UDP_DONE ∧
        st ≠ .DNS_SO_TCP_CONN ∧ st ≠ .DNS_SO_TCP_RECV ∧ st ≠ .DNS_SO_TCP_DONE) :
      Turns r so .switch { so with state := st } .switch
  | trash {A : DnsPacket} {n : ℕ} (hstate : so.state = .DNS_SO_UDP_RECV) (hA : so.answer = some A) :
      Turns r so .switch { so with answer := some (datagram A r.bytes n) } .switch
  | accepts {A : DnsPacket} {n : ℕ} (hstate : so.state = .DNS_SO_UDP_RECV) (hA : so.answer = some A)
      (hverify : dnsSoVerify so (datagram A r.bytes n) = some none) :
      Turns r so .switch
        { so with answer := some (datagram A r.bytes n), state := .DNS_SO_UDP_DONE } .switch
  | answered {A : DnsPacket} (hstate : so.state = .DNS_SO_UDP_DONE) (hA : so.answer = some A)
      (hwhole : tc A = false ∨ so.type = .SOCK_DGRAM) : Turns r so .switch so (.returned none)
  | opens {olim fd : ℕ} (hstate : so.state = .DNS_SO_TCP_INIT) : Turns r so .switch
      { so.retired olim with tcp := some fd, state := .DNS_SO_TCP_CONN } .switch
  | retires {olim : ℕ} {c' : Control} (hstate : so.state = .DNS_SO_TCP_INIT) (h : Fails c') :
      Turns r so .switch (so.retired olim) c'
  | sends (hstate : so.state = .DNS_SO_TCP_SEND) : Turns r so .switch so (.sending so.qout)
  | receives (hstate : so.state = .DNS_SO_TCP_RECV) : Turns r so .switch so .receiving
  | rejects {so₁ : DnsSocket} {c' : Control} (hstate : so.state = .DNS_SO_TCP_DONE)
      (hso : so₁ = so ∨ ∃ olim, so₁ = so.retired olim) (h : Fails c') : Turns r so .switch so₁ c'
  | done {so₁ : DnsSocket} {A : DnsPacket} (hstate : so.state = .DNS_SO_TCP_DONE)
      (hso : so₁ = so ∨ ∃ olim, so₁ = so.retired olim) (hA : so₁.answer = some A)
      (hend : 12 ≤ A.end_) (hverify : dnsSoVerify so₁ A = some none) :
      Turns r so .switch so₁ (.returned none)
  | sent {Q : DnsPacket} {n qsrc : ℕ} (hQ : so.query = some Q) (hn : so.qout + n ≤ Q.end_ + 2) :
      Turns r so (.sending qsrc) { so with qout := so.qout + n } (.sending qsrc)
  | whole {Q : DnsPacket} {qsrc : ℕ} (hQ : so.query = some Q) (hout : Q.end_ + 2 ≤ so.qout) :
      Turns r so (.sending qsrc) { so with state := .DNS_SO_TCP_RECV } .switch
  | piece {A : DnsPacket} {n : ℕ} (hA : so.answer = some A) (hn : so.apos + n ≤ so.alen + 2)
      (hknown : so.alen = 0 → so.apos + n < 2) :
      Turns r so .receiving (segment so A r.bytes n) .receiving
  | length {A : DnsPacket} {n : ℕ} {so₁ : DnsSocket} (hA : so.answer = some A)
      (hlt : so.apos < 2) (hn : so.apos + n = 2) (halen : so.alen = 0)
      (hnew : dnsSoNewanswer (segment so A r.bytes n) (be16 (segment so A r.bytes n).padding 0)
        (be16_le _ 0) none = .ok so₁) :
      Turns r so .receiving { so₁ with alen := be16 (segment so A r.bytes n).padding 0 } .receiving
  | starves {A : DnsPacket} {n : ℕ} {c' : Control} (hA : so.answer = some A) (hlt : so.apos < 2)
      (hn : so.apos + n = 2) (halen : so.alen = 0) (h : Fails c') :
      Turns r so .receiving (segment so A r.bytes n) c'
  | ends {A : DnsPacket} (hA : so.answer = some A) (hpos : so.alen + 2 ≤ so.apos)
      (h : so.alen ≤ A.size) :
      Turns r so .receiving
        { so with
          answer := some { A with end_ := so.alen, end_le := h }
          state := .DNS_SO_TCP_DONE } .switch

theorem Turns.raise {e : SoError} (h : raise so e = (so', c')) : Turns r so c so' c' := by
  obtain ⟨c₁, hraise, hfails⟩ := raise_spec so e
  rw [hraise] at h
  cases h
  exact .raised hfails

theorem Turns.onward {st₀ st : SoState} (h : so.state = st₀)
    (h₀ : st₀ ≠ .DNS_SO_TCP_RECV ∧ st₀ ≠ .DNS_SO_TCP_DONE ∧ st₀ ≠ .unset)
    (hst : st ≠ .unset ∧ st ≠ .DNS_SO_UDP_DONE ∧ st ≠ .DNS_SO_TCP_CONN ∧ st ≠ .DNS_SO_TCP_RECV ∧
      st ≠ .DNS_SO_TCP_DONE) : Turns r so .switch { so with state := st } .switch :=
  .moves (h ▸ h₀.1) (h ▸ h₀.2.1) (h ▸ h₀.2.2) hst

/-! `dns_so_switch`, state by state. -/

theorem turns_udp_conn (hstate : so.state = .DNS_SO_UDP_CONN)
    (h : dnsSoSwitch r so = some (so', c')) : Turns r so .switch so' c' := by
  rw [dnsSoSwitch, hstate] at h
  cases hrc : r.rc with
  | error errno =>
    rw [hrc] at h
    exact .raise (Option.some.inj h)
  | ok n =>
    rw [hrc] at h
    cases h
    exact .onward hstate (by decide) (by decide)

theorem turns_udp_send (hstate : so.state = .DNS_SO_UDP_SEND)
    (h : dnsSoSwitch r so = some (so', c')) : Turns r so .switch so' c' := by
  rw [dnsSoSwitch, hstate] at h
  dsimp only at h
  split at h
  next => cases h
  next => exact .raise (Option.some.inj h)
  next =>
    cases h
    exact .onward hstate (by decide) (by decide)

/-- A datagram that does not match is dropped. -/
theorem turns_udp_recv (hstate : so.state = .DNS_SO_UDP_RECV)
    (h : dnsSoSwitch r so = some (so', c')) : Turns r so .switch so' c' := by
  rw [dnsSoSwitch, hstate] at h
  cases hA : so.answer with
  | none =>
    rw [hA] at h
    cases h
  | some A =>
    rw [hA] at h
    cases hrc : r.rc with
    | error errno =>
      rw [hrc] at h
      exact .raise (Option.some.inj h)
    | ok n =>
      rw [hrc] at h
      dsimp only at h
      split at h
      next =>
        cases h
        rw [← hstate]
        exact .trash hstate hA
      next =>
        obtain ⟨error, hverify, heq⟩ := Option.map_eq_some_iff.mp h
        cases error with
        | none =>
          cases heq
          exact .accepts hstate hA hverify
        | some error =>
          cases heq
          rw [← hstate]
          exact .trash hstate hA

/-- A truncated answer is asked for again over TCP. -/
theorem turns_udp_done (hstate : so.state = .DNS_SO_UDP_DONE)
    (h : dnsSoSwitch r so = some (so', c')) : Turns r so .switch so' c' := by
  rw [dnsSoSwitch, hstate] at h
  obtain ⟨A, hA, heq⟩ := Option.map_eq_some_iff.mp h
  split at heq
  next hwhole =>
    cases heq
    exact .answered hstate hA (hwhole.imp_left Bool.eq_false_iff.mpr)
  next =>
    cases heq
    exact .onward hstate (by decide) (by decide)

theorem turns_tcp_init (hstate : so.state = .DNS_SO_TCP_INIT)
    (h : dnsSoSwitch r so = some (so', c')) : Turns r so .switch so' c' := by
  rw [dnsSoSwitch, hstate] at h
  dsimp only at h
  split at h
  next =>
    cases h
    exact .onward hstate (by decide) (by decide)
  next =>
    cases hclose : dnsSoClosefd so r.realloc with
    | error errno =>
      rw [hclose] at h
      exact .raise (Option.some.inj h)
    | ok so₁ =>
      rw [hclose] at h
      obtain ⟨olim, rfl⟩ := dnsSoClosefd_eq hclose
      cases hrc : r.rc with
      | error errno =>
        rw [hrc] at h
        obtain ⟨c₁, hraise, hfails⟩ := raise_spec (so.retired olim) errno
        cases hraise.symm.trans (Option.some.inj h)
        exact .retires hstate hfails
      | ok fd =>
        rw [hrc] at h
        cases h
        exact .opens hstate

theorem turns_tcp_conn (hstate : so.state = .DNS_SO_TCP_CONN)
    (h : dnsSoSwitch r so = some (so', c')) : Turns r so .switch so' c' := by
  rw [dnsSoSwitch, hstate] at h
  cases hrc : r.rc with
  | error errno =>
    rw [hrc] at h
    dsimp only at h
    split at h
    next => exact .raise (Option.some.inj h)
    next =>
      cases h
      exact .onward hstate (by decide) (by decide)
  | ok n =>
    rw [hrc] at h
    cases h
    exact .onward hstate (by decide) (by decide)

theorem turns_tcp_done (hstate : so.state = .DNS_SO_TCP_DONE)
    (h : dnsSoSwitch r so = some (so', c')) : Turns r so .switch so' c' := by
  rw [dnsSoSwitch, hstate] at h
  dsimp only at h
  split at h
  next errno hclose => exact .raise (Option.some.inj h)
  next so₁ hclose =>
    have hso : so₁ = so ∨ ∃ olim, so₁ = so.retired olim := by
      split at hclose
      next =>
        cases hclose
        exact .inl rfl
      next => exact .inr (dnsSoClosefd_eq hclose)
    obtain ⟨A, hA, h⟩ := Option.bind_eq_some_iff.mp h
    split at h
    next =>
      cases h
      exact .rejects hstate hso (.inr ⟨_, rfl⟩)
    next hend =>
      obtain ⟨error, hverify, heq⟩ := Option.map_eq_some_iff.mp h
      cases error with
      | none =>
        cases heq
        exact .done hstate hso hA (not_lt.mp hend) hverify
      | some error =>
        obtain ⟨c₁, hraise, hfails⟩ := raise_spec so₁ error
        cases hraise.symm.trans heq
        exact .rejects hstate hso hfails

theorem turns_switch (h : dnsSoSwitch r so = some (so', c')) : Turns r so .switch so' c' := by
  cases hstate : so.state with
  | unset =>
    rw [dnsSoSwitch, hstate] at h
    exact .raise (Option.some.inj h)
  | DNS_SO_UDP_INIT =>
    rw [dnsSoSwitch, hstate] at h
    cases h
    exact .onward hstate (by decide) (by decide)
  | DNS_SO_UDP_CONN => exact turns_udp_conn hstate h
  | DNS_SO_UDP_SEND => exact turns_udp_send hstate h
  | DNS_SO_UDP_RECV => exact turns_udp_recv hstate h
  | DNS_SO_UDP_DONE => exact turns_udp_done hstate h
  | DNS_SO_TCP_INIT => exact turns_tcp_init hstate h
  | DNS_SO_TCP_CONN => exact turns_tcp_conn hstate h
  | DNS_SO_TCP_SEND =>
    rw [dnsSoSwitch, hstate] at h
    cases h
    exact .sends hstate
  | DNS_SO_TCP_RECV =>
    rw [dnsSoSwitch, hstate] at h
    cases h
    exact .receives hstate
  | DNS_SO_TCP_DONE => exact turns_tcp_done hstate h

theorem turns_send {qsrc : ℕ} (h : dnsSoTcpSend r so qsrc = some (so', c')) :
    Turns r so (.sending qsrc) so' c' := by
  obtain ⟨Q, hQ, heq⟩ := Option.map_eq_some_iff.mp h
  split at heq
  next hlt =>
    cases hrc : r.rc with
    | error errno =>
      rw [hrc] at heq
      exact .raise heq
    | ok n =>
      rw [hrc] at heq
      cases heq
      exact .sent hQ (by omega)
  next hout =>
    cases heq
    exact .whole hQ (not_lt.mp hout)

theorem turns_recv (h : dnsSoTcpRecv r so = some (so', c')) : Turns r so .receiving so' c' := by
  obtain ⟨A, hA, h⟩ := Option.bind_eq_some_iff.mp h
  split at h
  next hlt =>
    cases hrc : r.rc with
    | error errno =>
      rw [hrc] at h
      exact .raise (Option.some.inj h)
    | ok n =>
      rw [hrc] at h
      dsimp only at h
      split at h
      next => exact .raise (Option.some.inj h)
      next =>
        have hn : so.apos + min n (so.alen + 2 - so.apos) ≤ so.alen + 2 := by omega
        split at h
        next hzero =>
          have halen : so.alen = 0 := hzero.1
          have hpos : so.apos + min n (so.alen + 2 - so.apos) ≥ 2 := hzero.2
          cases hrealloc : r.realloc with
          | some errno =>
            rw [hrealloc] at h
            obtain ⟨c₁, hraise, hfails⟩ :=
              raise_spec (segment so A r.bytes (min n (so.alen + 2 - so.apos))) errno
            cases hraise.symm.trans (Option.some.inj h)
            exact .starves hA (by omega) (by omega) halen hfails
          | none =>
            rw [hrealloc] at h
            cases h
            exact .length hA (by omega) (by omega) halen rfl
        next hzero =>
          cases h
          refine .piece hA hn fun halen => ?_
          have hshort : ¬(so.alen = 0 ∧ so.apos + min n (so.alen + 2 - so.apos) ≥ 2) := hzero
          omega
  next hlt =>
    split at h
    next hle =>
      cases h
      exact .ends hA (not_lt.mp hlt) hle
    next => cases h

theorem turns_of_turn (h : turn r so c = some (so', c')) : Turns r so c so' c' := by
  cases c with
  | out => cases h
  | returned error => cases h
  | switch => exact turns_switch h
  | sending qsrc => exact turns_send h
  | receiving => exact turns_recv h

/-- Descriptors are closed one after the other; there is no result where one is not open. -/
def closeAll (open_ : List ℕ) : List ℕ → Option (List ℕ)
  | [] => some open_
  | fd :: fds => if fd ∈ open_ then closeAll (open_.erase fd) fds else none

/-- An answer that was fetched, with the query that was submitted and the id it was given. -/
structure Taken where
  query : DnsPacket
  qid : ℕ
  answer : DnsPacket
  overTcp : Bool

/-- A socket in use. The rest is ghost: the packet that was submitted, what was written to the TCP
connection for it, `qout` when the call that wrote each byte began, what was read over TCP since it
was submitted or the socket was reset, the answers that were fetched, and the descriptors that are
open. -/
structure Exchange where
  so : DnsSocket
  control : Control
  submitted : Option DnsPacket
  wire : List UInt8
  entered : List ℕ
  heard : List UInt8
  taken : List Taken
  open_ : List ℕ

inductive SoAct
  | submit (Q : DnsPacket) (mkqid : UInt16) (realloc : Option SoError)
  | check
  | reply (r : Reply)
  | fetch
  | reset
  | clear
  | destroy

namespace Exchange

/-- No call of `dns_so_check` is under way. -/
def Idle : Control → Bool
  | .out => true
  | .returned _ => true
  | _ => false

/-- The descriptor that a turn has opened. -/
def opened (so so' : DnsSocket) : List ℕ :=
  if so.state = .DNS_SO_TCP_INIT ∧ so'.state = .DNS_SO_TCP_CONN then so'.tcp.toList else []

/-- What a turn has written, and `qout` when its call began. -/
def written (so so' : DnsSocket) : Control → List UInt8 × List ℕ
  | .sending qsrc => so.query.elim ([], []) fun Q =>
    ((List.range (so'.qout - so.qout)).map fun i => frame Q (qsrc + (so.qout + i)),
      List.replicate (so'.qout - so.qout) qsrc)
  | _ => ([], [])

/-- What a turn has read. -/
def read (so so' : DnsSocket) (bytes : Bytes) : List UInt8 := bytesAt bytes 0 (so'.apos - so.apos)

def next (s : Exchange) : SoAct → Option Exchange
  | .submit Q mkqid realloc =>
    if Idle s.control then
      (dnsSoSubmit s.so Q mkqid realloc).map fun r =>
        { s with so := r.2, control := .out, submitted := some Q, wire := [], entered := [],
                 heard := [] }
    else none
  | .check => if Idle s.control then some { s with control := .switch } else none
  | .reply r => (turn r s.so s.control).bind fun (so, control) =>
    -- the kernel hands out no descriptor that is open
    if ∀ fd ∈ opened s.so so, fd ∉ s.open_ then
      some { s with
        so, control
        wire := s.wire ++ (written s.so so s.control).1
        entered := s.entered ++ (written s.so so s.control).2
        heard := s.heard ++ read s.so so r.bytes
        open_ := opened s.so so ++ s.open_ }
    else none
  | .fetch =>
    if Idle s.control then
      match dnsSoFetch s.so, s.submitted with
      | some (A, so), some Q =>
        some { s with so, taken := ⟨Q, s.so.qid, A, s.so.state = .DNS_SO_TCP_DONE⟩ :: s.taken }
      | _, _ => some s
    else none
  | .reset =>
    if Idle s.control then
      some { s with so := dnsSoReset s.so, control := .out, submitted := none, wire := [],
                    entered := [], heard := [] }
    else none
  | .clear =>
    if Idle s.control then
      (closeAll s.open_ s.so.old).map fun open_ =>
        { s with so := { s.so with old := [], olim := 0 }, open_ }
    else none
  | .destroy =>
    if Idle s.control then
      (closeAll s.open_ s.so.owned).map fun open_ =>
        { s with so := { dnsSoReset s.so with udp := none, tcp := none, old := [], olim := 0 },
                 control := .out, submitted := none, wire := [], entered := [], heard := [], open_ }
    else none

/-- What `dns_so_init` makes. -/
def fresh (udp : ℕ) (type : SoType) : DnsSocket where
  udp := some udp
  tcp := none
  old := []
  olim := 0
  type := type
  state := .unset
  qid := 0
  qname := fun _ => 0
  qlen := 0
  qtype := 0
  qclass := 0
  query := none
  qout := 0
  answer := none
  padding := fun _ => 0
  alen := 0
  apos := 0

def blank (udp : ℕ) (type : SoType) : Exchange :=
  { so := fresh udp type, control := .out, submitted := none, wire := [], entered := [],
    heard := [], taken := [], open_ := [udp] }

def system : Transition.System Exchange SoAct where
  init s := ∃ udp type, s = blank udp type
  next := next

end Exchange

/-- The question of a packet: its type, its class, and the length and the text of its name without
regard to letter case. -/
def asked (P : DnsPacket) : Option (ℕ × ℕ × ℕ × List UInt8) :=
  match dnsRrParse blankRr 12 P with
  | none => none
  | some rr =>
    match dnsDExpand (expandTurns P) (fun _ => 0) qnameSize rr.dn.p P with
    | some (.ok qlen, qname) =>
      some (rr.type, rr.klass, qlen, (cString (bytesAt qname 0 qnameSize)).map tolower)
    | _ => none

end Suil.Dns
