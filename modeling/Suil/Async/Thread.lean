import Suil.Lib.Transition
import Suil.Async.MillList
import Mathlib.Tactic.Simps.Basic

/-! The waits of one `suil::Thread`: `add`, `remove`, the epoll dispatch,
`handleEvent` and `fireExpiredTimers` on Event and Delay objects, with the epoll
set of the thread. One step is one atomic access, one `_timersLock` section or
one system call. Calls of `add` and `remove` run on any number of threads, a
coroutine that is resumed goes on as a further such thread. The objects are kept
alive. `_stats`, `_scheduleQ` and the wakeup of the loop are left out. -/
namespace Suil.Async.Thread
open Transition DoublyLinked

/-- The address of an Event or of a Delay, and of the Timer inside it. -/
inductive Waiter
  | event (e : ℕ)
  | delay (d : ℕ)
  deriving DecidableEq

/-- `Event::State`; a Delay uses `created`, `scheduled`, `abandoned` and `fired`. -/
inductive State
  | created
  | fired
  | error
  | scheduled
  | abandoned
  | timeout
  deriving DecidableEq

/-- `Event::IO`. -/
inductive Direction
  | IN
  | OUT
  deriving DecidableEq

/-- The atomic state and the coroutine of an Event or Delay, and the deadline and
the target of its Timer. The `item` of the Timer lives in the links of `_timers`. -/
structure Cell where
  state : State
  coro : Option ℕ
  dd : Int
  target : Option Waiter

/-- A registered `epoll_event`; the mask has `EPOLLHUP | EPOLLERR` besides the direction. -/
structure Entry where
  ptr : ℕ
  mask : Direction
  deriving DecidableEq

inductive CtlOp
  | add
  | mod
  deriving DecidableEq

/-- Success, `EEXIST`, or any other `errno`. -/
inductive CtlAnswer
  | ok
  | exist
  | fail
  deriving DecidableEq

/-- `epoll_ctl` with the kernel's answer; `none` when it cannot answer so. -/
def epollCtl (set : Int → Option Entry) (op : CtlOp) (fd : Int) (ev : Entry) :
    CtlAnswer → Option (Int → Option Entry)
  | .ok => if (op = .add ↔ set fd = none) then some (Function.update set fd (some ev)) else none
  | .exist => if op = .add ∧ set fd = none then none else some set
  | .fail => some set

/-- The bits of `triggered.events`. -/
structure Flags where
  epollin : Bool
  epollout : Bool
  epollerr : Bool
  epollhup : Bool
  deriving DecidableEq

def Flags.has (f : Flags) : Direction → Bool
  | .IN => f.epollin
  | .OUT => f.epollout

/-- `triggered.events & (EPOLLERR | EPOLLHUP)`. -/
def Flags.failed (f : Flags) : Bool := f.epollerr || f.epollhup

/-- What the kernel can report of a descriptor registered with the mask `m`. -/
def Flags.fits (f : Flags) (m : Direction) : Bool :=
  (f.has m || f.failed) && !(f.has (match m with
    | .IN => .OUT
    | .OUT => .IN))

/-- An entry of `events` after `epoll_wait`. -/
structure Ready where
  fd : Int
  ptr : ℕ
  flags : Flags
  deriving DecidableEq

/-- Who won the compare-exchange out of `scheduled`: the dispatch of an epoll
report, `fireExpiredTimers`, or a call of `remove` on the given thread. -/
inductive Party
  | epoll (flags : Flags)
  | timer
  | remove (t : ℕ)
  deriving DecidableEq

inductive Agent
  | loop
  | thread (t : ℕ)
  deriving DecidableEq

def Party.agent : Party → Agent
  | .epoll _ | .timer => .loop
  | .remove t => .thread t

inductive AddStage
  | ctl (op : CtlOp)
  | target
  | link
  | store
  deriving DecidableEq

/-- `handleEvent` and `remove` after the compare-exchange: test of `timerHandle`,
`cancelTimer`, reset of the Timer, `EPOLL_CTL_DEL`, `coro.resume()`. -/
inductive FinishStage
  | check
  | cancel
  | reset
  | del
  | resume
  deriving DecidableEq

inductive Pc
  | idle
  | adding (w : Waiter) (st : AddStage)
  | removing (w : Waiter)
  | fired (e : ℕ) (flags : Flags)
  | popped (w : Waiter)
  | finishing (w : Waiter) (p : Party) (st : FinishStage)
  deriving DecidableEq

/-- What the loop does between two waits: the reports it has yet to dispatch, or
the time `fireExpiredTimers` read. -/
inductive Mode
  | polling
  | dispatching (batch : List Ready)
  | expiring (tp : Int)

/-- The coroutine that awaits an object: elsewhere, in `await_suspend` on thread
`t`, suspended, or about to run `await_resume`. -/
inductive Co
  | outside
  | suspending (t : ℕ)
  | suspended
  | resumed
  deriving DecidableEq

/-- The record of one `await_suspend`: who took the state out of `scheduled`, who
resumed the coroutine, and what `await_resume` read. -/
structure Wait where
  wins : List Party
  resumes : List Party
  result : Option State
  deriving DecidableEq

def Wait.fresh : Wait := ⟨[], [], none⟩

/-- `waits` (last wait first) and `pending` (added, neither cancelled nor popped)
are ghosts. -/
structure Sys where
  cells : Waiter → Cell
  fd : ℕ → Int
  ion : ℕ → Direction
  epoll : Int → Option Entry
  timers : Links Waiter
  mode : Mode
  pc : Agent → Pc
  co : Waiter → Co
  waits : Waiter → List Wait
  pending : Waiter → Bool

/-- Event and Delay objects of given descriptors, directions and deadlines, none awaited yet. -/
def Sys.start (fd : ℕ → Int) (ion : ℕ → Direction) (dd : Waiter → Int) : Sys where
  cells w := ⟨.created, none, dd w, none⟩
  fd := fd
  ion := ion
  epoll _ := none
  timers := .empty
  mode := .polling
  pc _ := .idle
  co _ := .outside
  waits _ := []
  pending _ := false

namespace Sys

@[simps]
def goto (s : Sys) (a : Agent) (pc : Pc) : Sys := { s with pc := Function.update s.pc a pc }

@[simps]
def setCell (s : Sys) (w : Waiter) (c : Cell) : Sys :=
  { s with cells := Function.update s.cells w c }

@[simps]
def setState (s : Sys) (w : Waiter) (st : State) : Sys :=
  { s with cells := Function.update s.cells w { s.cells w with state := st } }

@[simps]
def setCo (s : Sys) (w : Waiter) (c : Co) : Sys := { s with co := Function.update s.co w c }

@[simps]
def setWaits (s : Sys) (w : Waiter) (l : List Wait) : Sys :=
  { s with waits := Function.update s.waits w l }

@[simps]
def setPending (s : Sys) (w : Waiter) (b : Bool) : Sys :=
  { s with pending := Function.update s.pending w b }

end Sys

/-- The loop of `addTimer`: the first item with a later deadline, null when there is
none; `none` when `fuel` turns of the loop do not reach it. -/
def scanTimers (dds : Waiter → Int) (timers : Links Waiter) (dd : Int) :
    ℕ → Option Waiter → Option (Option Waiter)
  | 0, _ => none
  | _ + 1, none => some none
  | fuel + 1, some it =>
    if dd < dds it then some (some it) else scanTimers dds timers dd fuel (timers.next it)

def addTimer (s : Sys) (w : Waiter) (fuel : ℕ) : Option (Links Waiter) :=
  (scanTimers (fun w => (s.cells w).dd) s.timers (s.cells w).dd fuel s.timers.first).map
    (millListInsert s.timers w)

/-- `operator()(IO)` and `operator()(int64_t)` on an Event that is not awaited. -/
def configure (s : Sys) (e : ℕ) (ion : Direction) (dd : Int) : Option Sys :=
  if s.co (.event e) = .outside ∧ (s.cells (.event e)).state = .created then
    some { s.setCell (.event e) { s.cells (.event e) with dd := dd } with
      ion := Function.update s.ion e ion }
  else none

/-- The first step of `Thread::add` for each kind of object. -/
def firstStage : Waiter → AddStage
  | .event _ => .ctl .add
  | .delay _ => .store

/-- What `await_resume` leaves behind: only an Event drops its coroutine handle. -/
def resumedCell : Waiter → Cell → Cell
  | .event _, c => { c with state := .created, coro := none }
  | .delay _, c => { c with state := .created }

/-- `co_await` on thread `t`: `await_ready`, or `await_suspend` up to its call of `add`. -/
def await (s : Sys) (t : ℕ) (w : Waiter) (coro : ℕ) : Option Sys :=
  if s.pc (.thread t) = .idle ∧ s.co w = .outside then
    if (s.cells w).state = .fired then
      some ((s.setCell w (resumedCell w (s.cells w))).setWaits w (⟨[], [], some .fired⟩ :: s.waits w))
    else if (s.cells w).state = .created then
      some ((((s.setCell w { s.cells w with coro := some coro }).setCo w (.suspending t)).setWaits w
        (.fresh :: s.waits w)).goto (.thread t) (.adding w (firstStage w)))
    else none
  else none

/-- The call of `epoll_ctl` in `add(Event*)`; on an error `add` returns `false` and the
coroutine stays suspended. -/
def addCtl (s : Sys) (t e : ℕ) (op : CtlOp) (ans : CtlAnswer) : Option Sys :=
  let w := Waiter.event e
  if op = .add ∧ ((s.cells w).state = .scheduled ∨ s.fd e = -1 ∨ (s.cells w).coro = none) then none
  else
    match epollCtl s.epoll op (s.fd e) ⟨e, s.ion e⟩ ans with
    | none => none
    | some set =>
      match ans with
      | .ok => some ({ s with epoll := set }.goto (.thread t)
          (.adding w (if 0 < (s.cells w).dd then .target else .store)))
      | .exist => some (s.goto (.thread t) (.adding w (.ctl .mod)))
      | .fail => some ((s.goto (.thread t) .idle).setCo w .suspended)

def addTarget (s : Sys) (t : ℕ) (w : Waiter) : Sys :=
  (s.setCell w { s.cells w with target := some w }).goto (.thread t) (.adding w .link)

/-- After the lock section of `addTimer`. -/
def linkedPc : Waiter → Pc
  | .event e => .adding (.event e) .store
  | .delay _ => .idle

def addLink (s : Sys) (t : ℕ) (w : Waiter) (fuel : ℕ) : Option Sys :=
  (addTimer s w fuel).map fun timers =>
    ({ s with timers := timers }.setPending w true).goto (.thread t) (linkedPc w)

/-- After the store of `scheduled`. -/
def storedPc : Waiter → Pc
  | .event _ => .idle
  | .delay d => .adding (.delay d) .target

def addStore (s : Sys) (t : ℕ) (w : Waiter) : Sys :=
  ((s.setState w .scheduled).setCo w .suspended).goto (.thread t) (storedPc w)

/-- The next step of the call of `add` that thread `t` is in. -/
def addStep (s : Sys) (t fuel : ℕ) (ans : CtlAnswer) : Option Sys :=
  match s.pc (.thread t) with
  | .adding (.event e) (.ctl op) => addCtl s t e op ans
  | .adding w .target => some (addTarget s t w)
  | .adding w .link => addLink s t w fuel
  | .adding (.event e) .store => some (addStore s t (.event e))
  | .adding (.delay d) .store =>
    if (s.cells (.delay d)).state = .scheduled ∨ (s.cells (.delay d)).coro = none then none
    else some (addStore s t (.delay d))
  | _ => none

/-- Record the party that won the compare-exchange. -/
def win (s : Sys) (w : Waiter) (p : Party) : Sys :=
  s.setWaits w ((s.waits w).modifyHead fun x => { x with wins := x.wins ++ [p] })

/-- Where `remove` goes on after its compare-exchange: `remove(Delay*)` calls
`cancelTimer` without a test of its own. -/
def removeStage : Waiter → FinishStage
  | .event _ => .check
  | .delay _ => .cancel

/-- The compare-exchange of `remove`. -/
def removeCas (s : Sys) (t : ℕ) (spurious : Bool) : Option Sys :=
  match s.pc (.thread t) with
  | .removing w =>
    if spurious ∨ (s.cells w).state ≠ .scheduled then some (s.goto (.thread t) .idle)
    else some ((win (s.setState w .abandoned) w (.remove t)).goto (.thread t)
      (.finishing w (.remove t) (removeStage w)))
  | _ => none

/-- `epoll_wait` returns. -/
def wait (s : Sys) (batch : List Ready) : Option Sys :=
  match s.mode with
  | .polling =>
    if s.pc .loop = .idle ∧ batch.length ≤ 256 ∧ (∀ r ∈ batch, ((s.epoll r.fd).any fun en =>
        en.ptr = r.ptr && r.flags.fits en.mask) = true) then
      some { s with mode := .dispatching batch }
    else none
  | _ => none

/-- The compare-exchange of the epoll dispatch. -/
def dispatch (s : Sys) (spurious : Bool) : Option Sys :=
  match s.mode with
  | .dispatching (r :: rest) =>
    if s.pc .loop = .idle then
      if spurious ∨ (s.cells (.event r.ptr)).state ≠ .scheduled then
        some { s with mode := .dispatching rest }
      else some ({ win (s.setState (.event r.ptr) .fired) (.event r.ptr) (.epoll r.flags) with
        mode := .dispatching rest }.goto .loop (.fired r.ptr r.flags))
    else none
  | _ => none

/-- The second store of the epoll dispatch, with the assertion on its success path. -/
def storeFired (s : Sys) : Option Sys :=
  match s.pc .loop with
  | .fired e flags =>
    if flags.failed then
      some ((s.setState (.event e) .error).goto .loop (.finishing (.event e) (.epoll flags) .check))
    else if flags.has (s.ion e) then
      some ((s.setState (.event e) .fired).goto .loop (.finishing (.event e) (.epoll flags) .check))
    else none
  | _ => none

/-- All reports are dispatched; `fireExpiredTimers` reads the clock. -/
def beginExpire (s : Sys) (now : Int) : Option Sys :=
  match s.mode with
  | .dispatching [] => if s.pc .loop = .idle then some { s with mode := .expiring now } else none
  | _ => none

/-- A lock section of `fireExpiredTimers`. -/
def popExpired (s : Sys) : Option Sys :=
  match s.mode with
  | .expiring tp =>
    if s.pc .loop = .idle then
      match s.timers.first with
      | none => some { s with mode := .polling }
      | some w =>
        if tp < (s.cells w).dd then some { s with mode := .polling }
        else some (({ s with timers := (millListErase s.timers w).1 }.setPending w false).goto .loop
          (.popped w))
    else none
  | _ => none

/-- What `fireExpiredTimers` writes into the state. -/
def expiredState : Waiter → State
  | .event _ => .timeout
  | .delay _ => .fired

/-- The timer of an Event ends with `EPOLL_CTL_DEL`, that of a Delay at once. -/
def expiredStage : Waiter → FinishStage
  | .event _ => .del
  | .delay _ => .resume

/-- `fireExpiredTimers` looks at `it->target` and runs its compare-exchange. -/
def expire (s : Sys) (spurious : Bool) : Option Sys :=
  match s.pc .loop with
  | .popped it =>
    match (s.cells it).target with
    | none => none
    | some w =>
      if spurious ∨ (s.cells w).state ≠ .scheduled then some (s.goto .loop .idle)
      else some ((win (s.setState w (expiredState w)) w .timer).goto .loop
        (.finishing w .timer (expiredStage w)))
  | _ => none

/-- `cancelTimer`: the erase depends on the target alone. -/
def cancelTimer (s : Sys) (w : Waiter) : Sys :=
  if (s.cells w).target ≠ none then
    { s with timers := (millListErase s.timers w).1 }.setPending w false
  else s

/-- `timerHandle = {}`. -/
def resetTimer (s : Sys) (w : Waiter) : Sys :=
  { s.setCell w { s.cells w with dd := 0, target := none } with
    timers := (s.timers.setNext w none).setPrev w none }

def afterReset : Waiter → FinishStage
  | .event _ => .del
  | .delay _ => .resume

def delEntry (s : Sys) : Waiter → Sys
  | .event e => { s with epoll := Function.update s.epoll (s.fd e) none }
  | .delay _ => s

/-- `coro.resume()`. -/
def resume (s : Sys) (w : Waiter) (p : Party) : Sys :=
  (s.setCo w .resumed).setWaits w
    ((s.waits w).modifyHead fun x => { x with resumes := x.resumes ++ [p] })

/-- The next step of agent `a` on the object whose compare-exchange it has won. -/
def finish (s : Sys) (a : Agent) : Option Sys :=
  match s.pc a with
  | .finishing w p .check =>
    some (s.goto a (.finishing w p (if (s.cells w).target = none then .del else .cancel)))
  | .finishing w p .cancel => some ((cancelTimer s w).goto a (.finishing w p .reset))
  | .finishing w p .reset => some ((resetTimer s w).goto a (.finishing w p (afterReset w)))
  | .finishing w p .del => some ((delEntry s w).goto a (.finishing w p .resume))
  | .finishing w p .resume =>
    if (s.cells w).coro = none then none else some ((resume s w p).goto a .idle)
  | _ => none

/-- `await_resume`, with its exchange of the state for `created`. -/
def awaitResume (s : Sys) (w : Waiter) : Option Sys :=
  if s.co w = .resumed then
    some (((s.setCell w (resumedCell w (s.cells w))).setCo w .outside).setWaits w
      ((s.waits w).modifyHead fun x => { x with result := some (s.cells w).state }))
  else none

inductive Act
  | configure (e : ℕ) (ion : Direction) (dd : Int)
  | await (t : ℕ) (w : Waiter) (coro : ℕ)
  | add (t fuel : ℕ) (ans : CtlAnswer)
  | remove (t : ℕ) (w : Waiter)
  | removeCas (t : ℕ) (spurious : Bool)
  | wait (batch : List Ready)
  | dispatch (spurious : Bool)
  | storeFired
  | beginExpire (now : Int)
  | popExpired
  | expire (spurious : Bool)
  | finish (a : Agent)
  | awaitResume (w : Waiter)

def next (s : Sys) : Act → Option Sys
  | .configure e ion dd => configure s e ion dd
  | .await t w coro => await s t w coro
  | .add t fuel ans => addStep s t fuel ans
  | .remove t w =>
    if s.pc (.thread t) = .idle then some (s.goto (.thread t) (.removing w)) else none
  | .removeCas t spurious => removeCas s t spurious
  | .wait batch => wait s batch
  | .dispatch spurious => dispatch s spurious
  | .storeFired => storeFired s
  | .beginExpire now => beginExpire s now
  | .popExpired => popExpired s
  | .expire spurious => expire s spurious
  | .finish a => finish s a
  | .awaitResume w => awaitResume s w

def system : System Sys Act where
  init s := ∃ fd ion dd, s = .start fd ion dd
  next := next

end Suil.Async.Thread
