import Suil.Lib.Transition
import Mathlib.Data.Nat.Notation
import Mathlib.Tactic.SplitIfs

/-! `task<T, Joinable>`: the coroutine of a task that comes to its end, on one thread,
and the owner of the task object, on another. One step is one access to the frame that
the other side can see: a call of done(), an exchange of the flag, a read or a write of the
continuation or of the data, an operation on the semaphore, a destroy. -/
namespace Suil.Async.Task
open Transition

/-- What the owner does with a task before its destructor: operator bool, which is
await_ready, operator*, join, and co_await. -/
inductive Op
  | awaitReady
  | deref
  | join
  | coAwait
  deriving DecidableEq

/-- Where the coroutine is: in its body, after return_value or unhandled_exception, at the
final suspend point before the first access of the final awaiter, before its second. -/
inductive Child
  | body
  | returned
  | finalSuspend
  | readContinuation
  | destroy
  | finished
  deriving DecidableEq

/-- Where the owner is: between two operations, in `detail::await_suspend` before the write
of the continuation or before the exchange, suspended, before `await_resume`, after the
destructor. -/
inductive Owner
  | idle
  | install
  | exchange
  | suspended
  | resume
  | ended
  deriving DecidableEq

/-- How control gets to the continuation of a co_await. -/
inductive Transfer
  | awaitReady
  | awaitSuspend
  | finalAwaiter (continuation : ℕ)
  deriving DecidableEq

/-- `outcome` is the value that the body returns, none when it ends by an exception or `T`
is void; `parent` is the handle of the coroutine that awaits the task. -/
structure Config (T : Type*) where
  void : Bool
  parent : ℕ
  outcome : Option T

/-- The promise, both sides, the operations that the owner has still to begin, what
`await_resume` has returned, and ghosts: whether the frame is alive, how often it was destroyed,
whether an access has come after that (it finds what was there), how many co_awaits were begun,
what has resumed them, and whether a join has returned. -/
structure State (T : Type*) where
  flag : Bool
  continuation : Option ℕ
  data : Option T
  joinSem : Bool
  child : Child
  owner : Owner
  todo : List Op
  result : Option T
  alive : Bool
  destroyed : ℕ
  uaf : Bool
  awaits : ℕ
  transfers : List Transfer
  joined : Bool

variable {T : Type*}

def State.start (prog : List Op) : State T where
  flag := false
  continuation := none
  data := none
  joinSem := false
  child := .body
  owner := .idle
  todo := prog
  result := none
  alive := true
  destroyed := 0
  uaf := false
  awaits := 0
  transfers := []
  joined := false

/-- An access to the frame. -/
def State.touch (s : State T) : State T := { s with uaf := s.uaf || !s.alive }

def State.destroy (s : State T) : State T :=
  { s.touch with alive := false, destroyed := s.destroyed + 1 }

def State.transfer (s : State T) (t : Transfer) : State T :=
  { s with transfers := s.transfers ++ [t], owner := .resume }

@[simp] theorem touch_flag (s : State T) : s.touch.flag = s.flag := rfl
@[simp] theorem touch_owner (s : State T) : s.touch.owner = s.owner := rfl
@[simp] theorem touch_awaits (s : State T) : s.touch.awaits = s.awaits := rfl
@[simp] theorem touch_transfers (s : State T) : s.touch.transfers = s.transfers := rfl
@[simp] theorem destroy_awaits (s : State T) : s.destroy.awaits = s.awaits := rfl

/-- `done()`: the coroutine is suspended at its final suspend point. -/
def Child.done : Child → Bool
  | .body | .returned => false
  | _ => true

def childStep (joinable : Bool) (cfg : Config T) (s : State T) : Option (State T) :=
  match s.child with
  | .body => some { s.touch with data := cfg.outcome.or s.data, child := .returned }
  | .returned => some { s.touch with child := .finalSuspend }
  | .finalSuspend =>
    if joinable then some { s.touch with joinSem := true, child := .destroy }
    else some { s.touch with flag := true, child := if s.flag then .readContinuation else .finished }
  | .readContinuation =>
    match s.continuation with
    | some c => some ({ s.touch with child := .finished }.transfer (.finalAwaiter c))
    | none => some { s.touch with child := .finished }
  | .destroy => some { s.destroy with child := .finished }
  | .finished => none

/-- The destructor comes when no operation is left. `join` of a task that is not
joinable and `operator*` of a void task do not compile. -/
def ownerStep (joinable : Bool) (cfg : Config T) (s : State T) : Option (State T) :=
  match s.owner, s.todo with
  | .idle, [] =>
    if joinable then some { s with owner := .ended } else some { s.destroy with owner := .ended }
  | .idle, .awaitReady :: ops => some { s.touch with todo := ops }
  | .idle, .deref :: ops => if cfg.void then none else some { s.touch with todo := ops }
  | .idle, .join :: ops =>
    if joinable && (s.joinSem || !s.alive) then
      some { s.touch with joinSem := false, todo := ops, joined := true }
    else none
  | .idle, .coAwait :: ops =>
    let t := { s.touch with todo := ops, awaits := s.awaits + 1 }
    if s.child.done then some (t.transfer .awaitReady) else some { t with owner := .install }
  | .install, _ =>
    if joinable then some { s with owner := .suspended }
    else some { s.touch with continuation := some cfg.parent, owner := .exchange }
  | .exchange, _ =>
    let t := { s.touch with flag := true }
    if s.flag then some (t.transfer .awaitSuspend) else some { t with owner := .suspended }
  | .resume, _ =>
    if cfg.void then some { s with owner := .idle }
    else some { s.touch with result := s.data, owner := .idle }
  | .suspended, _ => none
  | .ended, _ => none

inductive Act
  | child
  | owner

def next (joinable : Bool) (cfg : Config T) (s : State T) : Act → Option (State T)
  | .child => childStep joinable cfg s
  | .owner => ownerStep joinable cfg s

def system (joinable : Bool) (cfg : Config T) (prog : List Op) : System (State T) Act where
  init s := s = .start prog
  next := next joinable cfg

/-- The outcomes of the steps, with what each of them has tested. -/
inductive Step (joinable : Bool) (cfg : Config T) (s : State T) : Act → State T → Prop
  | complete (hc : s.child = .body) :
      Step joinable cfg s .child { s.touch with data := cfg.outcome.or s.data, child := .returned }
  | suspend (hc : s.child = .returned) :
      Step joinable cfg s .child { s.touch with child := .finalSuspend }
  | release (hc : s.child = .finalSuspend) (hj : joinable = true) :
      Step joinable cfg s .child { s.touch with joinSem := true, child := .destroy }
  | exchangeFirst (hc : s.child = .finalSuspend) (hj : joinable = false) (hf : s.flag = false) :
      Step joinable cfg s .child { s.touch with flag := true, child := .finished }
  | exchangeSecond (hc : s.child = .finalSuspend) (hj : joinable = false) (hf : s.flag = true) :
      Step joinable cfg s .child { s.touch with flag := true, child := .readContinuation }
  | continuation {c} (hc : s.child = .readContinuation) (hk : s.continuation = some c) :
      Step joinable cfg s .child ({ s.touch with child := .finished }.transfer (.finalAwaiter c))
  | missing (hc : s.child = .readContinuation) (hk : s.continuation = none) :
      Step joinable cfg s .child { s.touch with child := .finished }
  | destroy (hc : s.child = .destroy) :
      Step joinable cfg s .child { s.destroy with child := .finished }
  | destructor (ho : s.owner = .idle) (ht : s.todo = []) (hj : joinable = false) :
      Step joinable cfg s .owner { s.destroy with owner := .ended }
  | forget (ho : s.owner = .idle) (ht : s.todo = []) (hj : joinable = true) :
      Step joinable cfg s .owner { s with owner := .ended }
  | access {op ops} (ho : s.owner = .idle) (ht : s.todo = op :: ops)
      (hop : op = .awaitReady ∨ op = .deref) :
      Step joinable cfg s .owner { s.touch with todo := ops }
  | join {ops} (ho : s.owner = .idle) (ht : s.todo = .join :: ops) (hj : joinable = true)
      (hs : s.joinSem = true ∨ s.alive = false) :
      Step joinable cfg s .owner { s.touch with joinSem := false, todo := ops, joined := true }
  | ready {ops} (ho : s.owner = .idle) (ht : s.todo = .coAwait :: ops) (hd : s.child.done = true) :
      Step joinable cfg s .owner
        ({ s.touch with todo := ops, awaits := s.awaits + 1 }.transfer .awaitReady)
  | notReady {ops} (ho : s.owner = .idle) (ht : s.todo = .coAwait :: ops)
      (hd : s.child.done = false) :
      Step joinable cfg s .owner
        { s.touch with todo := ops, awaits := s.awaits + 1, owner := .install }
  | noop (ho : s.owner = .install) (hj : joinable = true) :
      Step joinable cfg s .owner { s with owner := .suspended }
  | install (ho : s.owner = .install) (hj : joinable = false) :
      Step joinable cfg s .owner
        { s.touch with continuation := some cfg.parent, owner := .exchange }
  | flagSecond (ho : s.owner = .exchange) (hf : s.flag = true) :
      Step joinable cfg s .owner ({ s.touch with flag := true }.transfer .awaitSuspend)
  | flagFirst (ho : s.owner = .exchange) (hf : s.flag = false) :
      Step joinable cfg s .owner { s.touch with flag := true, owner := .suspended }
  | resumeVoid (ho : s.owner = .resume) (hv : cfg.void = true) :
      Step joinable cfg s .owner { s with owner := .idle }
  | resume (ho : s.owner = .resume) (hv : cfg.void = false) :
      Step joinable cfg s .owner { s.touch with result := s.data, owner := .idle }

variable {joinable : Bool} {cfg : Config T} {s s' : State T} {a : Act}

theorem childStep_step (h : childStep joinable cfg s = some s') : Step joinable cfg s .child s' := by
  unfold childStep at h
  split at h
  · next hc => exact Option.some.inj h ▸ .complete hc
  · next hc => exact Option.some.inj h ▸ .suspend hc
  · next hc =>
    split_ifs at h with hj hf
    · exact Option.some.inj h ▸ .release hc hj
    · exact Option.some.inj h ▸ .exchangeSecond hc (by simpa using hj) hf
    · exact Option.some.inj h ▸ .exchangeFirst hc (by simpa using hj) (by simpa using hf)
  · next hc =>
    split at h
    · next c hk => exact Option.some.inj h ▸ .continuation hc hk
    · next hk => exact Option.some.inj h ▸ .missing hc hk
  · next hc => exact Option.some.inj h ▸ .destroy hc
  · cases h

theorem ownerStep_step (h : ownerStep joinable cfg s = some s') : Step joinable cfg s .owner s' := by
  unfold ownerStep at h
  split at h
  · next ho ht =>
    split_ifs at h with hj
    · exact Option.some.inj h ▸ .forget ho ht hj
    · exact Option.some.inj h ▸ .destructor ho ht (by simpa using hj)
  · next ho ht => exact Option.some.inj h ▸ .access ho ht (.inl rfl)
  · next ho ht =>
    split_ifs at h with hv
    exact Option.some.inj h ▸ .access ho ht (.inr rfl)
  · next ho ht =>
    split_ifs at h with hj
    simp only [Bool.and_eq_true, Bool.or_eq_true, Bool.not_eq_true'] at hj
    exact Option.some.inj h ▸ .join ho ht hj.1 hj.2
  · next ho ht =>
    split_ifs at h with hd
    · exact Option.some.inj h ▸ .ready ho ht hd
    · exact Option.some.inj h ▸ .notReady ho ht (by simpa using hd)
  · next ho =>
    split_ifs at h with hj
    · exact Option.some.inj h ▸ .noop ho hj
    · exact Option.some.inj h ▸ .install ho (by simpa using hj)
  · next ho =>
    simp only at h
    split_ifs at h with hf
    · exact Option.some.inj h ▸ .flagSecond ho hf
    · exact Option.some.inj h ▸ .flagFirst ho (by simpa using hf)
  · next ho =>
    split_ifs at h with hv
    · exact Option.some.inj h ▸ .resumeVoid ho hv
    · exact Option.some.inj h ▸ .resume ho (by simpa using hv)
  · cases h
  · cases h

theorem next_step (h : next joinable cfg s a = some s') : Step joinable cfg s a s' := by
  cases a with
  | child => exact childStep_step h
  | owner => exact ownerStep_step h

end Suil.Async.Task
