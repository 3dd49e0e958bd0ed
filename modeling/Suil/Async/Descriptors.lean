import Suil.Lib.Transition
import Suil.Lib.Ownership
import Suil.Async.Tcp
import Mathlib.Tactic.ByContra

/-! Who owns the descriptors: runs of `connect`, `acceptOn`, `listen`, moves, `detach`,
`close` and destruction on TcpSocket and TcpListener objects. The kernel hands out any
descriptor that is not open. -/
namespace Suil.Async.Descriptors
open Transition Ownership Socket Tcp

inductive Holder
  | sock (o : ℕ)
  | listener (o : ℕ)
  deriving DecidableEq

/-- The objects alive, the descriptors open, and the descriptors obtained from `socket()`
and `accept()`, passed to `::close` and detached so far. -/
structure State where
  sock : ℕ → Option TcpSocket
  listener : ℕ → Option TcpListener
  live : ℤ → Bool
  obtained : List ℤ
  closed : List ℤ
  detached : List ℤ

namespace State

def start : State := ⟨fun _ => none, fun _ => none, fun _ => false, [], [], []⟩

def setSock (s : State) (o : ℕ) (x : Option TcpSocket) : State :=
  { s with sock := Function.update s.sock o x }

def setListener (s : State) (o : ℕ) (x : Option TcpListener) : State :=
  { s with listener := Function.update s.listener o x }

def obtain (s : State) (fd : ℤ) : State :=
  { s with live := Function.update s.live fd true, obtained := fd :: s.obtained }

/-- `::close(fd)`. -/
def close (s : State) (fd : ℤ) : State :=
  { s with live := Function.update s.live fd false, closed := fd :: s.closed }

def detach (s : State) (fd : ℤ) : State := { s with detached := fd :: s.detached }

/-- `socket()` or `accept()` returns `fd`. -/
def grant (s : State) (fd : ℤ) : Option State :=
  if fd = INVALID_FD then some s else if s.live fd then none else some (s.obtain fd)

end State

/-- What `socket()` returns. -/
def descriptor : Except Errno ℕ → ℤ
  | .error _ => INVALID_FD
  | .ok n => n

/-- `Socket::close` on `x`, the object `o` itself. -/
def closeSock (s : State) (o : ℕ) (x : TcpSocket) : State :=
  if x.fd ≠ INVALID_FD then (s.close x.fd).setSock o (some { x with fd := -1, error := 0 })
  else s

/-- `TcpListener::close`; `::shutdown` leaves the descriptor open. -/
def closeListener (s : State) (o : ℕ) (x : TcpListener) : State :=
  if x.fd ≠ INVALID_FD then s.setListener o (some { x with fd := INVALID_FD, port := 0 })
  else s

inductive Act
  | connect (o : ℕ) (c : ConnectCalls) (queueID : ℕ)
  | listen (o : ℕ) (c : ListenCalls) (port : ℕ)
  | acceptOn (l o : ℕ) (turns : List AcceptTurn)
  | moveSock (k o : ℕ)
  | assignSock (k o : ℕ)
  | moveListener (k o : ℕ)
  | assignListener (k o : ℕ)
  | detach (o : ℕ)
  | closeSock (o : ℕ)
  | destroySock (o : ℕ)
  | closeListener (o : ℕ)
  | destroyListener (o : ℕ)

/-- A call names a free place for the object it makes; a move is from `o` to `k`. -/
def next (s : State) : Act → Option State
  | .connect o c queueID =>
    if s.sock o = none then
      (s.grant (descriptor c.socket)).map fun s =>
        ((Tcp.connect c queueID).2.foldl State.close s).setSock o (some (Tcp.connect c queueID).1)
    else none
  | .listen o c port =>
    if s.listener o = none then
      (s.grant (descriptor c.socket)).map fun s =>
        ((Tcp.listen c port).2.foldl State.close s).setListener o (some (Tcp.listen c port).1)
    else none
  | .acceptOn l o turns =>
    match s.listener l, s.sock o, Tcp.acceptOn turns with
    | some x, none, some (sock, error) =>
      (s.grant sock.fd).map fun s =>
        (s.setListener l (some { x with error })).setSock o (some sock)
    | _, _, _ => none
  | .moveSock k o =>
    match s.sock k, s.sock o with
    | none, some x => some ((s.setSock k (some x)).setSock o (some .empty))
    | _, _ => none
  | .assignSock k o =>
    match s.sock k, s.sock o with
    | some _, some x =>
      if k = o then some s else some ((s.setSock k (some x)).setSock o (some .empty))
    | _, _ => none
  | .moveListener k o =>
    match s.listener k, s.listener o with
    | none, some x =>
      some ((s.setListener k (some ⟨x.fd, x.port, 0⟩)).setListener o
        (some ⟨INVALID_FD, 0, x.error⟩))
    | _, _ => none
  | .assignListener k o =>
    match s.listener k, s.listener o with
    | some y, some x =>
      if k = o then some s
      else some ((s.setListener k (some ⟨x.fd, x.port, y.error⟩)).setListener o
        (some ⟨INVALID_FD, 0, x.error⟩))
    | _, _ => none
  | .detach o =>
    (s.sock o).map fun x =>
      (if x.fd ≠ INVALID_FD then s.detach x.fd else s).setSock o (some { x with fd := INVALID_FD })
  | .closeSock o => (s.sock o).map (closeSock s o)
  | .destroySock o => (s.sock o).map fun x => (closeSock s o x).setSock o none
  | .closeListener o => (s.listener o).map (closeListener s o)
  | .destroyListener o => (s.listener o).map fun x => (closeListener s o x).setListener o none

def system : System State Act where
  init s := s = .start
  next := next

/-- The descriptor behind a field `_fd`. -/
def fdOf (fd : ℤ) : Option ℤ := if fd = INVALID_FD then none else some fd

/-- Holders are the objects alive, their descriptors the resources. -/
def State.ledger (s : State) : Ledger Holder ℤ where
  held
    | .sock o => (s.sock o).bind fun x => fdOf x.fd
    | .listener o => (s.listener o).bind fun x => fdOf x.fd
  live := s.live
  acquired := s.obtained
  released := s.closed
  given := s.detached

section Ledger
variable (s : State) (o : ℕ) (fd : ℤ)

theorem ledger_setSock (x : Option TcpSocket) :
    (s.setSock o x).ledger = s.ledger.hold (.sock o) (x.bind fun y => fdOf y.fd) := by
  unfold State.ledger State.setSock Ledger.hold
  congr 1
  funext h
  cases h with
  | sock k => by_cases hk : k = o <;> simp [hk]
  | listener k => simp

theorem ledger_setListener (x : Option TcpListener) :
    (s.setListener o x).ledger = s.ledger.hold (.listener o) (x.bind fun y => fdOf y.fd) := by
  unfold State.ledger State.setListener Ledger.hold
  congr 1
  funext h
  cases h with
  | sock k => simp
  | listener k => by_cases hk : k = o <;> simp [hk]

theorem ledger_obtain : (s.obtain fd).ledger = s.ledger.acquire fd := rfl

theorem ledger_close : (s.close fd).ledger = s.ledger.release fd := rfl

theorem ledger_detach : (s.detach fd).ledger = s.ledger.give fd := rfl

variable {s o fd} {x : TcpSocket} {y : TcpListener}

theorem held_sock (hx : s.sock o = some x) : s.ledger.held (.sock o) = fdOf x.fd := by
  simp [State.ledger, hx]

theorem held_listener (hy : s.listener o = some y) :
    s.ledger.held (.listener o) = fdOf y.fd := by
  simp [State.ledger, hy]

theorem held_sock_none (hx : s.sock o = none) : s.ledger.held (.sock o) = none := by
  simp [State.ledger, hx]

theorem held_listener_none (hy : s.listener o = none) :
    s.ledger.held (.listener o) = none := by
  simp [State.ledger, hy]

end Ledger

theorem fdOf_invalid : fdOf INVALID_FD = none := rfl

theorem fdOf_eq_some {fd r : ℤ} : fdOf fd = some r ↔ fd ≠ INVALID_FD ∧ fd = r := by
  unfold fdOf
  split_ifs with h <;> simp [h]

/-- `connect` gets to `getsockopt`. -/
def Checks (c : ConnectCalls) : Prop :=
  c.socket.isOk ∧ (∃ errno, c.connect = .error errno ∧ errno.val = EINPROGRESS) ∧ c.ev = .fired

/-- The steps that neither lose a descriptor nor keep a closed one: `SO_ERROR` of a socket that
`connect` has waited for is 0, `bind` and `::listen` succeed, nothing is assigned over an open
socket, and no listener is closed or destroyed while it has a descriptor. -/
def Keeps (s : State) : Act → Prop
  | .connect _ c _ => Checks c → c.getsockopt = .ok 0
  | .listen _ c _ => c.socket.isOk → c.bind.isOk ∧ c.listen.isOk
  | .assignSock k o => k ≠ o → ∀ x, s.sock k = some x → x.fd = INVALID_FD
  | .assignListener k o => k ≠ o → ∀ x, s.listener k = some x → x.fd = INVALID_FD
  | .closeListener o | .destroyListener o => ∀ x, s.listener o = some x → x.fd = INVALID_FD
  | _ => True

section Step
variable {s t u : State} {fd : ℤ} {h : Holder}

theorem grant_cases (hg : s.grant fd = some u) :
    fd = INVALID_FD ∧ u = s ∨ fd ≠ INVALID_FD ∧ ¬ s.live fd ∧ u = s.obtain fd := by
  unfold State.grant at hg
  split_ifs at hg with hfd hlive
  · exact .inl ⟨hfd, (Option.some.inj hg).symm⟩
  · exact .inr ⟨hfd, hlive, (Option.some.inj hg).symm⟩

theorem grant_listener (hg : s.grant fd = some u) : u.listener = s.listener := by
  rcases grant_cases hg with ⟨-, rfl⟩ | ⟨-, -, rfl⟩ <;> rfl

/-- A new descriptor goes to an object that had none. -/
theorem owned_place (hs : Owned s.ledger) (hfree : s.ledger.held h = none)
    (hg : s.grant fd = some u) : Owned (u.ledger.hold h (fdOf fd)) := by
  rcases grant_cases hg with ⟨rfl, rfl⟩ | ⟨hfd, hdead, rfl⟩
  · rwa [fdOf_invalid, Ledger.hold_of_eq hfree]
  · have hsome : fdOf fd = some fd := fdOf_eq_some.mpr ⟨hfd, rfl⟩
    rw [hsome, ledger_obtain]
    exact hs.acquire_hold hdead hfree

theorem connect_closed (c : ConnectCalls) (queueID : ℕ) :
    (Tcp.connect c queueID).2 = [] ∧ (Checks c → c.getsockopt = .ok 0) ∨
      ¬ (Checks c → c.getsockopt = .ok 0) ∧ descriptor c.socket ≠ INVALID_FD ∧
        (Tcp.connect c queueID).2 = [descriptor c.socket] := by
  unfold Tcp.connect Checks
  cases c.socket with
  | error e => exact .inl ⟨rfl, fun h => absurd h.1 nofun⟩
  | ok n =>
    have hn : descriptor (.ok n) ≠ INVALID_FD := by
      unfold descriptor INVALID_FD
      simp only
      omega
    cases c.connect with
    | ok u => exact .inl ⟨rfl, fun ⟨_, ⟨_, h, _⟩, _⟩ => absurd h nofun⟩
    | error e =>
      by_cases he : e.val = EINPROGRESS
      · by_cases hev : c.ev = .fired
        · have hchecks : (Except.ok n : Except Errno ℕ).isOk ∧
              (∃ errno, (Except.error e : Except Errno Unit) = .error errno ∧
                errno.val = EINPROGRESS) ∧ c.ev = .fired := ⟨rfl, ⟨e, rfl, he⟩, hev⟩
          cases c.getsockopt with
          | error e' =>
            exact .inr ⟨fun h => absurd (h hchecks) nofun, hn, by simp [he, hev, descriptor]⟩
          | ok err =>
            by_cases herr : err = 0
            · exact .inl (by simp [he, hev, herr])
            · refine .inr ⟨fun h => herr (Except.ok.inj (h hchecks)), hn, ?_⟩
              simp [he, hev, herr, descriptor]
        · exact .inl (by simp [he, hev])
      · exact .inl (by simp [he])

theorem connect_fd_descriptor (c : ConnectCalls) (queueID : ℕ) :
    (Tcp.connect c queueID).1.fd = descriptor c.socket := by
  rw [connect_fd]
  cases c.socket <;> rfl

theorem owned_connect {o : ℕ} {c : ConnectCalls} {queueID : ℕ} (hs : Owned s.ledger)
    (hk : Keeps s (.connect o c queueID)) (hn : next s (.connect o c queueID) = some t) :
    Owned t.ledger := by
  simp only [next, Option.ite_none_right_eq_some, Option.map_eq_some_iff] at hn
  obtain ⟨hfree, u, hg, rfl⟩ := hn
  have hclosed : (Tcp.connect c queueID).2 = [] := by
    rcases connect_closed c queueID with ⟨h, -⟩ | ⟨hne, -, -⟩
    · exact h
    · exact absurd hk hne
  rw [hclosed, List.foldl_nil, ledger_setSock]
  simp only [Option.bind_some, connect_fd_descriptor]
  exact owned_place hs (held_sock_none hfree) hg

/-- `connect` has closed the descriptor of the object it returns. -/
theorem keeps_of_owned_connect {o : ℕ} {c : ConnectCalls} {queueID : ℕ}
    (hn : next s (.connect o c queueID) = some t) (ht : Owned t.ledger) :
    Keeps s (.connect o c queueID) := by
  simp only [next, Option.ite_none_right_eq_some, Option.map_eq_some_iff] at hn
  obtain ⟨hfree, u, hg, rfl⟩ := hn
  rcases connect_closed c queueID with ⟨-, hk⟩ | ⟨-, hfd, hclosed⟩
  · exact hk
  · refine absurd ht (Owned.not_of_dangling (h := .sock o) (r := descriptor c.socket) ?_ ?_)
    · rw [held_sock (x := (Tcp.connect c queueID).1) (by simp [State.setSock])]
      exact fdOf_eq_some.mpr ⟨connect_fd_descriptor c queueID ▸ hfd,
        connect_fd_descriptor c queueID⟩
    · simp [hclosed, State.ledger, State.setSock, State.close]

/-- What `listen` does with its descriptor when `bind` and `::listen` succeed. -/
theorem listen_outcome {c : ListenCalls} (port : ℕ)
    (hc : c.socket.isOk → c.bind.isOk ∧ c.listen.isOk) :
    (Tcp.listen c port).2 = [] ∧ (Tcp.listen c port).1.fd = descriptor c.socket ∨
      descriptor c.socket ≠ INVALID_FD ∧ (Tcp.listen c port).2 = [descriptor c.socket] ∧
        (Tcp.listen c port).1.fd = INVALID_FD := by
  cases hs : c.socket with
  | error e => exact .inl (by simp [Tcp.listen, hs, TcpListener.construct, descriptor, INVALID_FD])
  | ok n =>
    obtain ⟨hb, hl⟩ := hc (by rw [hs]; rfl)
    cases hb' : c.bind with
    | error e =>
      rw [hb'] at hb
      cases hb
    | ok u =>
      cases hl' : c.listen with
      | error e =>
        rw [hl'] at hl
        cases hl
      | ok v =>
        by_cases hp : port = 0
        · cases hg : c.getsockname with
          | error e =>
            refine .inr ⟨?_, ?_⟩
            · unfold descriptor INVALID_FD
              simp only
              omega
            · simp [Tcp.listen, hs, hb', hl', hp, hg, TcpListener.construct, descriptor,
                INVALID_FD]
          | ok p =>
            refine .inl ?_
            simp [Tcp.listen, hs, hb', hl', hp, hg, TcpListener.construct, descriptor]
        · refine .inl ?_
          simp [Tcp.listen, hs, hb', hl', hp, TcpListener.construct, descriptor]

theorem owned_listen {o port : ℕ} {c : ListenCalls} (hs : Owned s.ledger)
    (hk : Keeps s (.listen o c port)) (hn : next s (.listen o c port) = some t) :
    Owned t.ledger := by
  simp only [next, Option.ite_none_right_eq_some, Option.map_eq_some_iff] at hn
  obtain ⟨hfree, u, hg, rfl⟩ := hn
  have hnone := held_listener_none hfree
  rw [ledger_setListener]
  rcases listen_outcome port hk with ⟨hclosed, hfd⟩ | ⟨hvalid, hclosed, hfd⟩
  · rw [hclosed, List.foldl_nil]
    simp only [Option.bind_some, hfd]
    exact owned_place hs hnone hg
  · rw [hclosed, List.foldl_cons, List.foldl_nil]
    simp only [Option.bind_some, hfd, fdOf_invalid]
    rcases grant_cases hg with ⟨hinvalid, -⟩ | ⟨-, hdead, rfl⟩
    · exact absurd hinvalid hvalid
    · have hnone' : ((s.ledger.acquire (descriptor c.socket)).release
          (descriptor c.socket)).held (.listener o) = none := hnone
      rw [ledger_close, ledger_obtain, Ledger.hold_of_eq hnone']
      exact hs.acquire_release hdead

/-- `listen` has passed -1 to `::close` and forgets its descriptor. -/
theorem listen_failed {c : ListenCalls} (port : ℕ)
    (hc : ¬ (c.socket.isOk → c.bind.isOk ∧ c.listen.isOk)) :
    descriptor c.socket ≠ INVALID_FD ∧ (Tcp.listen c port).2 = [INVALID_FD] ∧
      (Tcp.listen c port).1.fd = INVALID_FD := by
  cases hs : c.socket with
  | error e =>
    refine absurd (fun h => ?_) hc
    rw [hs] at h
    exact absurd h nofun
  | ok n =>
    refine ⟨?_, ?_⟩
    · unfold descriptor INVALID_FD
      simp only
      omega
    · cases hb : c.bind with
      | error e => simp [Tcp.listen, hs, hb, TcpListener.construct, INVALID_FD]
      | ok u =>
        cases hl : c.listen with
        | error e => simp [Tcp.listen, hs, hb, hl, TcpListener.construct, INVALID_FD]
        | ok v => exact absurd (fun _ => ⟨by rw [hb]; rfl, by rw [hl]; rfl⟩) hc

theorem keeps_of_owned_listen {o port : ℕ} {c : ListenCalls} (hs : Owned s.ledger)
    (hn : next s (.listen o c port) = some t) (ht : Owned t.ledger) :
    Keeps s (.listen o c port) := by
  simp only [next, Option.ite_none_right_eq_some, Option.map_eq_some_iff] at hn
  obtain ⟨hfree, u, hg, rfl⟩ := hn
  by_contra hk
  obtain ⟨hfd, hclosed, hinvalid⟩ := listen_failed port hk
  rcases grant_cases hg with ⟨h, -⟩ | ⟨-, hdead, rfl⟩
  · exact hfd h
  have hlost : ∀ a, s.ledger.held a ≠ some (descriptor c.socket) :=
    fun a => hs.not_held hdead
  have hgiven : descriptor c.socket ∉ s.detached := fun h => hdead (hs.given h).1
  simp only [hclosed, List.foldl_cons, List.foldl_nil] at ht
  refine Owned.not_of_leak (r := descriptor c.socket) ?_ hgiven (fun a ha => ?_) ht
  · simp [State.ledger, State.setListener, State.close, State.obtain, hfd]
  · rw [ledger_setListener, ledger_close, ledger_obtain, Ledger.hold_held_iff] at ha
    simp only [Option.bind_some, hinvalid, fdOf_invalid] at ha
    rcases ha with ⟨-, h⟩ | ⟨-, h⟩
    · exact absurd h nofun
    · exact hlost a h

theorem owned_acceptOn {l o : ℕ} {turns : List AcceptTurn} (hs : Owned s.ledger)
    (hn : next s (.acceptOn l o turns) = some t) : Owned t.ledger := by
  simp only [next] at hn
  split at hn
  next x sock error hl hfree hacc =>
    obtain ⟨u, hg, rfl⟩ := Option.map_eq_some_iff.mp hn
    have hheld : u.ledger.held (.listener l) = fdOf x.fd :=
      held_listener (by rw [grant_listener hg, hl])
    rw [ledger_setSock, ledger_setListener]
    simp only [Option.bind_some]
    rw [Ledger.hold_of_eq hheld]
    exact owned_place hs (held_sock_none hfree) hg
  next => exact absurd hn nofun

/-- The new object gets what the other one had. -/
theorem ledger_moveSock {k o : ℕ} (hn : next s (.moveSock k o) = some t) :
    k ≠ o ∧ s.ledger.held (.sock k) = none ∧
      t.ledger = (s.ledger.hold (.sock k) (s.ledger.held (.sock o))).hold (.sock o) none := by
  simp only [next] at hn
  split at hn
  next x hk ho =>
    have hne : k ≠ o := by
      rintro rfl
      rw [hk] at ho
      cases ho
    refine ⟨hne, held_sock_none hk, ?_⟩
    rw [← Option.some.inj hn, ledger_setSock, ledger_setSock, held_sock ho]
    rfl
  next => cases hn

theorem ledger_moveListener {k o : ℕ} (hn : next s (.moveListener k o) = some t) :
    k ≠ o ∧ s.ledger.held (.listener k) = none ∧
      t.ledger = (s.ledger.hold (.listener k) (s.ledger.held (.listener o))).hold
        (.listener o) none := by
  simp only [next] at hn
  split at hn
  next x hk ho =>
    have hne : k ≠ o := by
      rintro rfl
      rw [hk] at ho
      cases ho
    refine ⟨hne, held_listener_none hk, ?_⟩
    rw [← Option.some.inj hn, ledger_setListener, ledger_setListener, held_listener ho]
    rfl
  next => cases hn

/-- An assignment over another object does the same, whatever that object had. -/
theorem ledger_assignSock {k o : ℕ} (hn : next s (.assignSock k o) = some t) :
    k = o ∧ t = s ∨ k ≠ o ∧ (∃ y, s.sock k = some y) ∧
      t.ledger = (s.ledger.hold (.sock k) (s.ledger.held (.sock o))).hold (.sock o) none := by
  simp only [next] at hn
  split at hn
  next y x hy ho =>
    split_ifs at hn with hko
    · exact .inl ⟨hko, (Option.some.inj hn).symm⟩
    · refine .inr ⟨hko, ⟨y, hy⟩, ?_⟩
      rw [← Option.some.inj hn, ledger_setSock, ledger_setSock, held_sock ho]
      rfl
  next => cases hn

theorem ledger_assignListener {k o : ℕ} (hn : next s (.assignListener k o) = some t) :
    k = o ∧ t = s ∨ k ≠ o ∧ (∃ y, s.listener k = some y) ∧
      t.ledger = (s.ledger.hold (.listener k) (s.ledger.held (.listener o))).hold
        (.listener o) none := by
  simp only [next] at hn
  split at hn
  next y x hy ho =>
    split_ifs at hn with hko
    · exact .inl ⟨hko, (Option.some.inj hn).symm⟩
    · refine .inr ⟨hko, ⟨y, hy⟩, ?_⟩
      rw [← Option.some.inj hn, ledger_setListener, ledger_setListener, held_listener ho]
      rfl
  next => cases hn

theorem owned_moveSock {k o : ℕ} (hs : Owned s.ledger) (hn : next s (.moveSock k o) = some t) :
    Owned t.ledger := by
  obtain ⟨hne, hfree, ht⟩ := ledger_moveSock hn
  rw [ht]
  exact hs.move (fun h => hne (Holder.sock.inj h)) hfree

theorem owned_moveListener {k o : ℕ} (hs : Owned s.ledger)
    (hn : next s (.moveListener k o) = some t) : Owned t.ledger := by
  obtain ⟨hne, hfree, ht⟩ := ledger_moveListener hn
  rw [ht]
  exact hs.move (fun h => hne (Holder.listener.inj h)) hfree

theorem owned_assignSock {k o : ℕ} (hs : Owned s.ledger) (hk : Keeps s (.assignSock k o))
    (hn : next s (.assignSock k o) = some t) : Owned t.ledger := by
  rcases ledger_assignSock hn with ⟨-, rfl⟩ | ⟨hko, ⟨y, hy⟩, ht⟩
  · exact hs
  · have hfree : s.ledger.held (.sock k) = none := by
      rw [held_sock hy, hk hko y hy, fdOf_invalid]
    rw [ht]
    exact hs.move (fun h => hko (Holder.sock.inj h)) hfree

theorem owned_assignListener {k o : ℕ} (hs : Owned s.ledger)
    (hk : Keeps s (.assignListener k o)) (hn : next s (.assignListener k o) = some t) :
    Owned t.ledger := by
  rcases ledger_assignListener hn with ⟨-, rfl⟩ | ⟨hko, ⟨y, hy⟩, ht⟩
  · exact hs
  · have hfree : s.ledger.held (.listener k) = none := by
      rw [held_listener hy, hk hko y hy, fdOf_invalid]
    rw [ht]
    exact hs.move (fun h => hko (Holder.listener.inj h)) hfree

theorem keeps_of_owned_assignSock {k o : ℕ} (hs : Owned s.ledger)
    (hn : next s (.assignSock k o) = some t) (ht : Owned t.ledger) :
    Keeps s (.assignSock k o) := by
  intro hko y hy
  by_contra hfd
  have hheld : s.ledger.held (.sock k) = some y.fd :=
    (held_sock hy).trans (fdOf_eq_some.mpr ⟨hfd, rfl⟩)
  rcases ledger_assignSock hn with ⟨heq, -⟩ | ⟨-, -, hledger⟩
  · exact hko heq
  · rw [hledger] at ht
    exact hs.not_owned_move (fun h => hko (Holder.sock.inj h)) hheld ht

theorem keeps_of_owned_assignListener {k o : ℕ} (hs : Owned s.ledger)
    (hn : next s (.assignListener k o) = some t) (ht : Owned t.ledger) :
    Keeps s (.assignListener k o) := by
  intro hko y hy
  by_contra hfd
  have hheld : s.ledger.held (.listener k) = some y.fd :=
    (held_listener hy).trans (fdOf_eq_some.mpr ⟨hfd, rfl⟩)
  rcases ledger_assignListener hn with ⟨heq, -⟩ | ⟨-, -, hledger⟩
  · exact hko heq
  · rw [hledger] at ht
    exact hs.not_owned_move (fun h => hko (Holder.listener.inj h)) hheld ht

theorem owned_detach {o : ℕ} (hs : Owned s.ledger) (hn : next s (.detach o) = some t) :
    Owned t.ledger := by
  obtain ⟨x, hx, rfl⟩ := Option.map_eq_some_iff.mp hn
  rw [ledger_setSock]
  simp only [Option.bind_some, fdOf_invalid]
  split_ifs with hfd
  · rw [ledger_detach]
    exact hs.give_hold ((held_sock hx).trans (fdOf_eq_some.mpr ⟨hfd, rfl⟩))
  · have hnone : s.ledger.held (.sock o) = none := by
      rw [held_sock hx, not_not.mp hfd, fdOf_invalid]
    rwa [Ledger.hold_of_eq hnone]

theorem owned_closeSock {o : ℕ} {x : TcpSocket} (hs : Owned s.ledger) (hx : s.sock o = some x) :
    Owned (closeSock s o x).ledger ∧ (closeSock s o x).ledger.held (.sock o) = none := by
  unfold closeSock
  split_ifs with hfd
  · rw [ledger_setSock, ledger_close]
    refine ⟨hs.release_hold ((held_sock hx).trans (fdOf_eq_some.mpr ⟨hfd, rfl⟩)), ?_⟩
    simp [Ledger.hold, fdOf, INVALID_FD]
  · refine ⟨hs, ?_⟩
    rw [held_sock hx, not_not.mp hfd, fdOf_invalid]

theorem owned_destroySock {o : ℕ} (hs : Owned s.ledger)
    (hn : next s (.destroySock o) = some t) : Owned t.ledger := by
  obtain ⟨x, hx, rfl⟩ := Option.map_eq_some_iff.mp hn
  obtain ⟨howned, hnone⟩ := owned_closeSock hs hx
  rw [ledger_setSock, Option.bind_none, Ledger.hold_of_eq hnone]
  exact howned

/-- A listener without a descriptor is not changed by `close`. -/
theorem closeListener_invalid {o : ℕ} {x : TcpListener} (hx : x.fd = INVALID_FD) :
    closeListener s o x = s := if_neg (not_not.mpr hx)

theorem not_owned_closeListener {o : ℕ} {x : TcpListener} (hs : Owned s.ledger)
    (hx : s.listener o = some x) (hfd : x.fd ≠ INVALID_FD) :
    ¬ Owned (s.ledger.hold (.listener o) none) :=
  hs.not_owned_hold_none ((held_listener hx).trans (fdOf_eq_some.mpr ⟨hfd, rfl⟩))

theorem keeps_of_owned {a : Act} (hs : Owned s.ledger) (hn : next s a = some t)
    (ht : Owned t.ledger) : Keeps s a := by
  cases a with
  | connect o c queueID => exact keeps_of_owned_connect hn ht
  | listen o c port => exact keeps_of_owned_listen hs hn ht
  | assignSock k o => exact keeps_of_owned_assignSock hs hn ht
  | assignListener k o => exact keeps_of_owned_assignListener hs hn ht
  | closeListener o =>
    intro x hx
    by_contra hfd
    simp only [next, hx, Option.map_some, closeListener, if_pos hfd] at hn
    rw [← Option.some.inj hn, ledger_setListener] at ht
    exact not_owned_closeListener hs hx hfd ht
  | destroyListener o =>
    intro x hx
    by_contra hfd
    simp only [next, hx, Option.map_some, closeListener, if_pos hfd] at hn
    rw [← Option.some.inj hn, ledger_setListener, ledger_setListener] at ht
    have hheld : (s.ledger.hold (.listener o) none).hold (.listener o) none =
        s.ledger.hold (.listener o) none := Ledger.hold_of_eq (by simp [Ledger.hold])
    simp only [Option.bind_some, Option.bind_none, fdOf_invalid, hheld] at ht
    exact not_owned_closeListener hs hx hfd ht
  | _ => trivial

theorem owned_next {a : Act} (hs : Owned s.ledger) (hk : Keeps s a) (hn : next s a = some t) :
    Owned t.ledger := by
  cases a with
  | connect o c queueID => exact owned_connect hs hk hn
  | listen o c port => exact owned_listen hs hk hn
  | acceptOn l o turns => exact owned_acceptOn hs hn
  | moveSock k o => exact owned_moveSock hs hn
  | assignSock k o => exact owned_assignSock hs hk hn
  | moveListener k o => exact owned_moveListener hs hn
  | assignListener k o => exact owned_assignListener hs hk hn
  | detach o => exact owned_detach hs hn
  | closeSock o =>
    obtain ⟨x, hx, rfl⟩ := Option.map_eq_some_iff.mp hn
    exact (owned_closeSock hs hx).1
  | destroySock o => exact owned_destroySock hs hn
  | closeListener o =>
    obtain ⟨x, hx, rfl⟩ := Option.map_eq_some_iff.mp hn
    rwa [closeListener_invalid (hk x hx)]
  | destroyListener o =>
    obtain ⟨x, hx, rfl⟩ := Option.map_eq_some_iff.mp hn
    have hnone : s.ledger.held (.listener o) = none := by
      rw [held_listener hx, hk x hx, fdOf_invalid]
    rw [closeListener_invalid (hk x hx), ledger_setListener, Option.bind_none,
      Ledger.hold_of_eq hnone]
    exact hs

end Step

theorem held_start (h : Holder) : State.start.ledger.held h = none := by
  cases h <;> rfl

theorem owned_start : Owned State.start.ledger where
  unique ha := absurd ((held_start _).symm.trans ha) nofun
  live ha := absurd ((held_start _).symm.trans ha) nofun
  once _ := rfl
  kept ha := absurd ha nofun
  given ha := absurd ha List.not_mem_nil

theorem inductive_owned : system.Inductive Keeps fun s => Owned s.ledger where
  init _ hs := hs ▸ owned_start
  step _ _ _ hs hk hn := owned_next hs hk hn

/-- In runs whose steps all keep their descriptors every descriptor is owned, and a step
that does not keep them ends that. -/
theorem owned_of_keeps (s : State) (hs : system.ReachableBy Keeps s) :
    Owned s.ledger ∧ ∀ a t, next s a = some t → (Owned t.ledger ↔ Keeps s a) := by
  have howned : Owned s.ledger := inductive_owned.holds hs
  refine ⟨howned, fun a t hn => ?_⟩
  constructor
  · exact keeps_of_owned howned hn
  · exact fun hk => owned_next howned hk hn

def EINPROGRESS_errno : Errno := ⟨EINPROGRESS, by decide, by decide⟩

/-- A connection that is made at once. -/
def connected : Act := .connect 0 ⟨.ok 3, .ok (), .created, 0, .ok 0⟩ 0

/-- A connection that is refused after the wait: ECONNREFUSED in `SO_ERROR`. -/
def refusedLate : Act := .connect 0 ⟨.ok 3, .error EINPROGRESS_errno, .fired, 0, .ok 111⟩ 0

theorem keeps_connected : Keeps .start connected :=
  fun ⟨_, ⟨_, h, _⟩, _⟩ => absurd h nofun

theorem owned_of_keeps_connected :
    ∃ s, system.ReachableBy Keeps s ∧ s.obtained = [3] ∧ Owned s.ledger ∧
      ∀ t, next s (.closeSock 0) = some t → Owned t.ledger := by
  have h0 : system.ReachableBy Keeps State.start := .init rfl
  have hs : system.ReachableBy Keeps _ := .step h0 keeps_connected rfl
  obtain ⟨howned, hiff⟩ := owned_of_keeps _ hs
  exact ⟨_, hs, rfl, howned, fun t hn => (hiff _ t hn).mpr trivial⟩

/-- The object returned by a connection refused late holds a descriptor that is closed. -/
theorem exists_not_owned : ∃ s, system.Reachable s ∧ ¬ Owned s.ledger := by
  have h0 : system.Reachable State.start := .init rfl
  have hs : system.Reachable _ := .step (a := refusedLate) h0 trivial rfl
  refine ⟨_, hs, fun h => ?_⟩
  have hk : Keeps .start refusedLate := keeps_of_owned owned_start rfl h
  exact absurd (hk ⟨rfl, ⟨_, rfl, rfl⟩, rfl⟩) nofun

end Suil.Async.Descriptors
