import Suil.Async.Socket
import Mathlib.Algebra.Ring.Nat

/-! `TcpSocket::connect`, `TcpListener::listen` and `TcpListener::acceptOn` for every
outcome of their system calls and waits. The addresses, which only reach the kernel,
`tcptune` and the check of a thread id, which set options or abort, are left out. -/
namespace Suil.Async.Tcp
open Thread (State)
open Socket

/-- The fields of a `Socket`. -/
structure TcpSocket where
  fd : ℤ
  error : ℤ
  tID : ℕ
  deriving DecidableEq

/-- The fields of a `TcpListener`. -/
structure TcpListener where
  fd : ℤ
  port : ℕ
  error : ℤ
  deriving DecidableEq

namespace TcpSocket

/-- `TcpSocket{fd, err, tId}`; the constructor of `Socket` drops `err`. -/
def construct (fd _err : ℤ) (tId : ℕ) : TcpSocket := ⟨fd, 0, tId⟩

/-- `TcpSocket{}`, also what a move leaves behind. -/
def empty : TcpSocket := ⟨INVALID_FD, 0, THREAD_ID_ANY⟩

def isValid (s : TcpSocket) : Bool := s.fd ≠ INVALID_FD

end TcpSocket

namespace TcpListener

/-- `TcpListener{fd, port, err}`. -/
def construct (fd : ℤ) (port : ℕ) (err : ℤ := -1) : TcpListener := ⟨fd, port, err⟩

/-- `operator bool`. -/
def isValid (l : TcpListener) : Bool := 0 < l.fd

end TcpListener

/-- What the system calls and the wait of `connect` answer, `errno` after the wait included. -/
structure ConnectCalls where
  socket : Except Errno ℕ
  connect : Except Errno Unit
  ev : State
  errno : ℤ
  getsockopt : Except Errno ℤ

structure ListenCalls where
  socket : Except Errno ℕ
  bind : Except Errno Unit
  listen : Except Errno Unit
  getsockname : Except Errno ℕ

/-- `errno` after `::close(fd)`. -/
def errnoAfterClose (fd errno : ℤ) : ℤ := if fd < 0 then EBADF else errno

/-- The socket that `connect` returns and the arguments it has passed to `::close`. -/
def connect (c : ConnectCalls) (queueID : ℕ) : TcpSocket × List ℤ :=
  match c.socket with
  | .error errno => (.construct (-1) errno.val THREAD_ID_ANY, [])
  | .ok s =>
    match c.connect with
    | .ok () => (.construct s 0 queueID, [])
    | .error errno =>
      if errno.val ≠ EINPROGRESS then (.construct s errno.val queueID, [])
      else if c.ev ≠ .fired then (.construct s c.errno queueID, [])
      else
        match c.getsockopt with
        | .error errno => (.construct s errno.val queueID, [(s : ℤ)])
        | .ok err =>
          if err ≠ 0 then (.construct s err queueID, [(s : ℤ)])
          else (.construct s 0 queueID, [])

/-- `bind` and `::listen` return -1 when they fail, and that is what is passed to `::close`. -/
def listen (c : ListenCalls) (port : ℕ) : TcpListener × List ℤ :=
  match c.socket with
  | .error _ => (.construct (-1) 0 (-1), [])
  | .ok s =>
    match c.bind with
    | .error errno => (.construct (-1) 0 (errnoAfterClose (-1) errno.val), [-1])
    | .ok () =>
      match c.listen with
      | .error errno => (.construct (-1) 0 (errnoAfterClose (-1) errno.val), [-1])
      | .ok () =>
        if port = 0 then
          match c.getsockname with
          | .error errno => (.construct (-1) 0 errno.val, [(s : ℤ)])
          | .ok port => (.construct s port, [])
        else (.construct s port, [])

/-- One turn of the loop of `acceptOn`. -/
structure AcceptTurn where
  accept : Except Errno ℕ
  ev : State
  errno : ℤ

/-- The socket that `acceptOn` returns and the `_error` it leaves in the listener; `none`
while it waits. -/
def acceptOn : List AcceptTurn → Option (TcpSocket × ℤ)
  | [] => none
  | t :: ts =>
    match t.accept with
    | .ok as => some ({ TcpSocket.empty with fd := as }, 0)
    | .error errno =>
      if errno.val ≠ EAGAIN ∧ errno.val ≠ EWOULDBLOCK then some (.empty, errno.val)
      else if t.ev ≠ .fired then some (.empty, t.errno)
      else acceptOn ts

/-- Why no connection came about; `none` if one did. -/
def ConnectCalls.cause (c : ConnectCalls) : Option ℤ :=
  match c.socket with
  | .error errno => some errno.val
  | .ok _ =>
    match c.connect with
    | .ok () => none
    | .error errno =>
      if errno.val ≠ EINPROGRESS then some errno.val
      else if c.ev = .timeout then some ETIMEDOUT
      else if c.ev ≠ .fired then some c.errno
      else
        match c.getsockopt with
        | .error errno => some errno.val
        | .ok err => if err ≠ 0 then some err else none

/-- Why the listener is not bound and listening; `none` if it is. -/
def ListenCalls.cause (c : ListenCalls) (port : ℕ) : Option ℤ :=
  match c.socket, c.bind, c.listen, c.getsockname with
  | .error errno, _, _, _ => some errno.val
  | .ok _, .error errno, _, _ => some errno.val
  | .ok _, .ok (), .error errno, _ => some errno.val
  | .ok _, .ok (), .ok (), .error errno => if port = 0 then some errno.val else none
  | .ok _, .ok (), .ok (), .ok _ => none

/-- An object tells whether it was set up, and why not. -/
structure Faithful (valid : Bool) (error : ℤ) (cause : Option ℤ) : Prop where
  valid_iff : valid = true ↔ cause = none
  error_of_invalid : valid = false → cause = some error
  error_of_valid : valid = true → error = 0

/-- A failure after which `::close` sets the errno that `bind` or `::listen` had set as
well, or a failure of `getsockname`. -/
def ListenCalls.Reported (c : ListenCalls) (port : ℕ) : Prop :=
  match c.socket, c.bind, c.listen, c.getsockname with
  | .error _, _, _, _ => False
  | .ok _, .error errno, _, _ => errno.val = EBADF
  | .ok _, .ok (), .error errno, _ => errno.val = EBADF
  | .ok _, .ok (), .ok (), .error _ => port = 0
  | .ok _, .ok (), .ok (), .ok _ => False

section Connect
variable (c : ConnectCalls) (queueID : ℕ)

theorem connect_error : (connect c queueID).1.error = 0 := by
  unfold connect
  repeat' split
  all_goals rfl

theorem connect_fd :
    (connect c queueID).1.fd =
      match c.socket with
      | .error _ => INVALID_FD
      | .ok s => s := by
  unfold connect
  repeat' split
  all_goals rfl

/-- The socket is valid as soon as there is a descriptor. -/
theorem connect_isValid : (connect c queueID).1.isValid = c.socket.isOk := by
  unfold TcpSocket.isValid
  rw [connect_fd]
  cases c.socket with
  | error e => rfl
  | ok s =>
    have : (s : ℤ) ≠ INVALID_FD := by unfold INVALID_FD; omega
    simpa [Except.isOk, Except.toBool] using this

theorem connect_faithful_iff :
    Faithful (connect c queueID).1.isValid (connect c queueID).1.error c.cause ↔
      c.cause = none := by
  rw [connect_isValid, connect_error]
  constructor
  · intro h
    cases hs : c.socket with
    | error e =>
      have hcause : c.cause = some e.val := by simp [ConnectCalls.cause, hs]
      have hzero := h.error_of_invalid (by rw [hs]; rfl)
      have hpos := e.pos
      rw [hcause] at hzero
      exact absurd (Option.some.inj hzero) (by omega)
    | ok s => exact h.valid_iff.mp (by rw [hs]; rfl)
  · intro h
    cases hs : c.socket with
    | error e => simp [ConnectCalls.cause, hs] at h
    | ok s => exact ⟨⟨fun _ => h, fun _ => rfl⟩, nofun, fun _ => rfl⟩

end Connect

theorem faithful_of_none {valid : Bool} {error : ℤ} (h : Faithful valid error none) :
    error = 0 := by
  cases valid with
  | false => exact absurd (h.error_of_invalid rfl) nofun
  | true => exact h.error_of_valid rfl

theorem faithful_invalid_iff {error e : ℤ} : Faithful false error (some e) ↔ e = error := by
  constructor
  · intro h
    exact Option.some.inj (h.error_of_invalid rfl)
  · rintro rfl
    exact ⟨⟨nofun, nofun⟩, fun _ => rfl, nofun⟩

/-- Whatever the descriptor, a listener that listens has -1 as its last error. -/
theorem not_faithful_listening {fd : ℤ} {port : ℕ} :
    ¬ Faithful (TcpListener.construct fd port).isValid (TcpListener.construct fd port).error
      none := by
  intro h
  have hzero : (-1 : ℤ) = 0 := faithful_of_none h
  exact absurd hzero (by decide)

section Listen
variable (c : ListenCalls) (port : ℕ)

theorem listen_faithful_iff :
    Faithful (listen c port).1.isValid (listen c port).1.error (c.cause port) ↔
      c.Reported port := by
  cases hs : c.socket with
  | error e =>
    have hpos := e.pos
    have hne : e.val ≠ -1 := by omega
    simp only [listen, ListenCalls.cause, ListenCalls.Reported, hs]
    exact iff_of_false (fun h => hne (faithful_invalid_iff.mp h)) id
  | ok s =>
    cases hb : c.bind with
    | error e =>
      simp only [listen, ListenCalls.cause, ListenCalls.Reported, hs, hb]
      exact faithful_invalid_iff
    | ok u =>
      cases hl : c.listen with
      | error e =>
        simp only [listen, ListenCalls.cause, ListenCalls.Reported, hs, hb, hl]
        exact faithful_invalid_iff
      | ok v =>
        by_cases hp : port = 0
        · cases hg : c.getsockname with
          | error e =>
            simp only [listen, ListenCalls.cause, ListenCalls.Reported, hs, hb, hl, hg, hp,
              if_true]
            exact iff_of_true (faithful_invalid_iff.mpr rfl) trivial
          | ok p =>
            simp only [listen, ListenCalls.cause, ListenCalls.Reported, hs, hb, hl, hg, hp,
              if_true]
            exact iff_of_false not_faithful_listening id
        · cases hg : c.getsockname with
          | error e =>
            simp only [listen, ListenCalls.cause, ListenCalls.Reported, hs, hb, hl, hg, hp,
              if_false]
            exact iff_of_false not_faithful_listening id
          | ok p =>
            simp only [listen, ListenCalls.cause, ListenCalls.Reported, hs, hb, hl, hg, hp,
              if_false]
            exact iff_of_false not_faithful_listening id

end Listen

/-- `connect` is faithful exactly when it has connected, and `listen` exactly on failures
whose errno it does not lose. -/
theorem connect_listen_faithful_iff (c : ConnectCalls) (queueID : ℕ) (l : ListenCalls)
    (port : ℕ) :
    (Faithful (connect c queueID).1.isValid (connect c queueID).1.error c.cause ↔
        c.cause = none) ∧
      (Faithful (listen l port).1.isValid (listen l port).1.error (l.cause port) ↔
        l.Reported port) :=
  ⟨connect_faithful_iff c queueID, listen_faithful_iff l port⟩

/-- ECONNREFUSED. -/
def refused : ConnectCalls := ⟨.ok 3, .error ⟨111, by decide, by decide⟩, .created, 0, .ok 0⟩

def listening : ListenCalls := ⟨.ok 3, .ok (), .ok (), .ok 80⟩

/-- A refused connection is a valid object, and a listening socket reports an error. -/
theorem connect_listen_unfaithful :
    ¬ Faithful (connect refused 0).1.isValid (connect refused 0).1.error refused.cause ∧
      ¬ Faithful (listen listening 80).1.isValid (listen listening 80).1.error
        (listening.cause 80) := by
  constructor
  · intro h
    exact absurd (h.valid_iff.mp rfl) nofun
  · intro h
    exact absurd (h.error_of_valid rfl) (by decide)

end Suil.Async.Tcp
