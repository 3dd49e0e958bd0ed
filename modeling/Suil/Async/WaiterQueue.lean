import Suil.Lib.Chain
import Suil.Async.AutoReset

/-! The waiters of an `AutoResetEvent`: `await_suspend` of operations that were built for the
event, `set`, `reset` and `resumeWaiters`. Each operation is awaited once; it shares a number
with its coroutine, and a call of `set` or `reset` with its thread. One step is one atomic
operation, one turn of a loop or one item of a list. -/
namespace Suil.Async.WaiterQueue
open Transition Linked
open AutoReset (SET_INCREMENT WAITER_INCREMENT get_set_count get_waiter_count
  get_resumable_waiter_count)

/-- What `waitersToResumeEnd` points to. -/
inductive Slot
  | waitersToResume
  | next (op : ℕ)
  deriving DecidableEq

/-- The locals of `resumeWaiters`; `suspending` says that `await_suspend` has called it. -/
structure Call where
  suspending : Bool
  waitersToResume : Option ℕ
  waitersToResumeEnd : Slot
  waitersToResumeCount : ℕ
  i : ℕ
  deriving DecidableEq

/-- `pick` is the head of the `for` loop, `take` the exchange of `_newWaiters`, `reverse` the loop
after it, `pop` the rest of the body, `subtract` the `fetch_sub`, `drop` the last loop. -/
inductive Stage
  | pick
  | take
  | reverse (newWaiters : ℕ)
  | pop
  | subtract
  | drop
  deriving DecidableEq

inductive Pc
  | out
  | load
  | push (head : Option ℕ)
  | count
  | release
  | suspended
  | told
  | set (oldState : ℕ)
  | reset (oldState : ℕ)
  | resume (call : Call) (stage : Stage)
  deriving DecidableEq

/-- `crashed` is a failed assertion or the use of a null pointer. The rest are ghosts: the
operations that were pushed, those that were taken off the lists, those whose count was dropped,
those that were resumed and those that `await_suspend` has told not to suspend, each in order,
and how much was subtracted from each counter. -/
structure State where
  state : ℕ
  newWaiters : Option ℕ
  waiters : Option ℕ
  next : ℕ → Option ℕ
  refCount : ℕ → ℕ
  pc : ℕ → Pc
  crashed : Bool
  pushed : List ℕ
  taken : List ℕ
  dropped : List ℕ
  resumed : List ℕ
  told : List ℕ
  subtracted : ℕ

namespace State

def start (initiallySet : Bool) : State where
  state := if initiallySet then SET_INCREMENT else 0
  newWaiters := none
  waiters := none
  next _ := none
  refCount _ := 2
  pc _ := .out
  crashed := false
  pushed := []
  taken := []
  dropped := []
  resumed := []
  told := []
  subtracted := 0

variable (s : State)

def goto (c : ℕ) (pc : Pc) : State := { s with pc := Function.update s.pc c pc }

def crash : State := { s with crashed := true }

/-- The head of the loop of `set`. -/
def setLoop (t oldState : ℕ) : State :=
  if get_set_count oldState > get_waiter_count oldState then s.goto t .out
  else s.goto t (.set oldState)

/-- The head of the loop of `reset`. -/
def resetLoop (t oldState : ℕ) : State :=
  if get_set_count oldState > get_waiter_count oldState then s.goto t (.reset oldState)
  else s.goto t .out

/-- The start of `resumeWaiters`. -/
def resumeWaiters (t : ℕ) (suspending : Bool) (initState : ℕ) : State :=
  let count := get_resumable_waiter_count initState
  if count = 0 then s.crash
  else s.goto t (.resume ⟨suspending, none, .waitersToResume, count, 0⟩ .pick)

def setCas (t oldState : ℕ) (spurious : Bool) : State :=
  if spurious ∨ s.state ≠ oldState then s.setLoop t s.state
  else
    let newState := (oldState + SET_INCREMENT) % 2 ^ 64
    let s := { s with state := newState }
    if oldState ≠ 0 ∧ get_set_count oldState = 0 then s.resumeWaiters t false newState
    else s.goto t .out

def resetCas (t oldState : ℕ) (spurious : Bool) : State :=
  if spurious ∨ s.state ≠ oldState then s.resetLoop t s.state
  else { s with state := (oldState + 2 ^ 64 - SET_INCREMENT) % 2 ^ 64 }.goto t .out

/-- The compare-exchange of `await_suspend`, with the write of `_next` before it. -/
def push (c : ℕ) (head : Option ℕ) (spurious : Bool) : State :=
  let s := { s with next := Function.update s.next c head }
  if spurious ∨ s.newWaiters ≠ head then s.goto c (.push s.newWaiters)
  else { s with newWaiters := some c, pushed := s.pushed ++ [c] }.goto c .count

/-- The `fetch_add` of `await_suspend`. -/
def count (c : ℕ) : State :=
  let newState := (s.state + WAITER_INCREMENT) % 2 ^ 64
  let s' := { s with state := newState }
  if s.state ≠ 0 ∧ get_waiter_count s.state = 0 then s'.resumeWaiters c true newState
  else s'.goto c .release

/-- `fetch_sub(1)` on `_refCount`. -/
def decrement (op : ℕ) : State :=
  { s with refCount := Function.update s.refCount op ((s.refCount op + 2 ^ 32 - 1) % 2 ^ 32) }

/-- The return of `await_suspend`. -/
def release (c : ℕ) : State :=
  if s.refCount c ≠ 1 then (s.decrement c).goto c .suspended
  else { s.decrement c with told := s.told ++ [c] }.goto c .told

/-- The condition of the `for` loop, and the test of `_waiters` in its body. -/
def pick (t : ℕ) (call : Call) : State :=
  if call.i < call.waitersToResumeCount then
    s.goto t (.resume call (if s.waiters = none then .take else .pop))
  else s.goto t (.resume call .subtract)

def take (t : ℕ) (call : Call) : State :=
  match s.newWaiters with
  | none => s.crash
  | some op => { s with newWaiters := none }.goto t (.resume call (.reverse op))

def reverse (t : ℕ) (call : Call) (op : ℕ) : State :=
  { s with next := Function.update s.next op s.waiters, waiters := some op }.goto t
    (.resume call (match s.next op with
      | some next => .reverse next
      | none => .pop))

/-- `*waitersToResumeEnd = waiterToResume`, for a local or for a field. -/
def append (call : Call) (waiterToResume : ℕ) : State × Call :=
  match call.waitersToResumeEnd with
  | .waitersToResume => (s, { call with waitersToResume := some waiterToResume })
  | .next op => ({ s with next := Function.update s.next op (some waiterToResume) }, call)

/-- The pop: `_next` is written, and `waitersToResumeEnd` set, through `waitersToResume`. -/
def pop (t : ℕ) (call : Call) : State :=
  match s.waiters, call.waitersToResume with
  | some waiterToResume, some head =>
    let s := { s with
      waiters := s.next waiterToResume, taken := s.taken ++ [waiterToResume]
      next := Function.update s.next head none }
    let (s, call) := s.append call waiterToResume
    match call.waitersToResume with
    | some head =>
      s.goto t (.resume { call with waitersToResumeEnd := .next head, i := call.i + 1 } .pick)
    | none => s.crash
  | _, _ => s.crash

/-- The `fetch_sub` on the two counters, and the assertion before the last loop. -/
def subtract (t : ℕ) (call : Call) : State :=
  let count := call.waitersToResumeCount
  let newState := (s.state + 2 ^ 64 - (count + count * 2 ^ 32) % 2 ^ 64) % 2 ^ 64
  let s := { s with state := newState, subtracted := s.subtracted + count }
  let count := get_resumable_waiter_count newState
  if count > 0 then s.goto t (.resume { call with waitersToResumeCount := count, i := 0 } .pick)
  else if call.waitersToResume = none then s.crash
  else s.goto t (.resume call .drop)

/-- A turn of the last loop; after it `set` or `await_suspend` goes on. -/
def drop (t : ℕ) (call : Call) : State :=
  match call.waitersToResume with
  | none => s.crash
  | some waiter =>
    let next := s.next waiter
    let s' := s.decrement waiter
    { s' with
      dropped := s.dropped ++ [waiter]
      resumed := if s.refCount waiter = 1 then s.resumed ++ [waiter] else s.resumed }.goto t
      (if next = none then if call.suspending then .release else .out
      else .resume { call with waitersToResume := next } .drop)

def resumeStep (t : ℕ) (call : Call) : Stage → State
  | .pick => s.pick t call
  | .take => s.take t call
  | .reverse op => s.reverse t call op
  | .pop => s.pop t call
  | .subtract => s.subtract t call
  | .drop => s.drop t call

end State

inductive Act
  | awaitSuspend (c : ℕ)
  | set (t : ℕ)
  | reset (t : ℕ)
  | step (c : ℕ) (spurious : Bool)

def next (s : State) (a : Act) : Option State :=
  if s.crashed then none
  else
    match a with
    | .awaitSuspend c => if s.pc c = .out then some (s.goto c .load) else none
    | .set t => if s.pc t = .out then some (s.setLoop t s.state) else none
    | .reset t => if s.pc t = .out then some (s.resetLoop t s.state) else none
    | .step c spurious =>
      match s.pc c with
      | .load => some (s.goto c (.push s.newWaiters))
      | .push head => some (s.push c head spurious)
      | .count => some (s.count c)
      | .release => some (s.release c)
      | .set oldState => some (s.setCas c oldState spurious)
      | .reset oldState => some (s.resetCas c oldState spurious)
      | .resume call stage => some (s.resumeStep c call stage)
      | .out | .suspended | .told => none

def system (initiallySet : Bool) : System State Act where
  init s := s = .start initiallySet
  next := next

/-- The steps, each with the place of the coroutine or thread that takes it. -/
inductive Step (s : State) : Act → State → Prop
  | awaitSuspend {c : ℕ} (hc : s.pc c = .out) : Step s (.awaitSuspend c) (s.goto c .load)
  | set {c : ℕ} (hc : s.pc c = .out) : Step s (.set c) (s.setLoop c s.state)
  | reset {c : ℕ} (hc : s.pc c = .out) : Step s (.reset c) (s.resetLoop c s.state)
  | load {c : ℕ} {spurious : Bool} (hc : s.pc c = .load) :
      Step s (.step c spurious) (s.goto c (.push s.newWaiters))
  | push {c : ℕ} {spurious : Bool} {head : Option ℕ} (hc : s.pc c = .push head) :
      Step s (.step c spurious) (s.push c head spurious)
  | count {c : ℕ} {spurious : Bool} (hc : s.pc c = .count) : Step s (.step c spurious) (s.count c)
  | release {c : ℕ} {spurious : Bool} (hc : s.pc c = .release) :
      Step s (.step c spurious) (s.release c)
  | setCas {c oldState : ℕ} {spurious : Bool} (hc : s.pc c = .set oldState) :
      Step s (.step c spurious) (s.setCas c oldState spurious)
  | resetCas {c oldState : ℕ} {spurious : Bool} (hc : s.pc c = .reset oldState) :
      Step s (.step c spurious) (s.resetCas c oldState spurious)
  | resume {c : ℕ} {spurious : Bool} {call : Call} {stage : Stage}
      (hc : s.pc c = .resume call stage) : Step s (.step c spurious) (s.resumeStep c call stage)

theorem step_of_next {s t : State} {a : Act} (hn : next s a = some t) : Step s a t := by
  obtain ⟨-, hn⟩ := Option.ite_none_left_eq_some.mp hn
  cases a with
  | awaitSuspend c =>
    obtain ⟨hc, rfl⟩ := Option.ite_none_right_eq_some.mp hn |>.imp_right Option.some.inj
    exact .awaitSuspend hc
  | set c =>
    obtain ⟨hc, rfl⟩ := Option.ite_none_right_eq_some.mp hn |>.imp_right Option.some.inj
    exact .set hc
  | reset c =>
    obtain ⟨hc, rfl⟩ := Option.ite_none_right_eq_some.mp hn |>.imp_right Option.some.inj
    exact .reset hc
  | step c spurious =>
    simp only at hn
    cases hc : s.pc c with
    | load =>
      rw [hc] at hn
      exact Option.some.inj hn ▸ .load hc
    | push head =>
      rw [hc] at hn
      exact Option.some.inj hn ▸ .push hc
    | count =>
      rw [hc] at hn
      exact Option.some.inj hn ▸ .count hc
    | release =>
      rw [hc] at hn
      exact Option.some.inj hn ▸ .release hc
    | set oldState =>
      rw [hc] at hn
      exact Option.some.inj hn ▸ .setCas hc
    | reset oldState =>
      rw [hc] at hn
      exact Option.some.inj hn ▸ .resetCas hc
    | resume call stage =>
      rw [hc] at hn
      exact Option.some.inj hn ▸ .resume hc
    | _ =>
      rw [hc] at hn
      cases hn

/-- The thread is in `resumeWaiters`. -/
def Pc.Resuming (pc : Pc) : Prop := ∃ call stage, pc = .resume call stage

/-- What the queue is for. Operations are taken in the order of their pushes; between the calls of
`resumeWaiters` as many were taken as were subtracted, each was dropped once, and was resumed or
told when `await_suspend` was left, and the others are still in the lists. -/
structure Lossless (s : State) : Prop where
  safe : s.crashed = false
  fifo : s.taken <+: s.pushed
  distinct : s.pushed.Nodup
  exact : (∀ t, ¬ (s.pc t).Resuming) → s.taken.length = s.subtracted
  dropped : (∀ t, ¬ (s.pc t).Resuming) → s.dropped = s.taken
  once : (∀ t, ¬ (s.pc t).Resuming) → ∀ op, s.pc op = .suspended ∨ s.pc op = .told →
    (s.resumed ++ s.told).count op = s.taken.count op
  queued : (∀ t, ¬ (s.pc t).Resuming) → ∃ old new, Chain s.next s.waiters old ∧
    Chain s.next s.newWaiters new ∧ s.pushed = s.taken ++ old ++ new.reverse

/-- `resumeWaiters` is not called: no `set` is counted while there are waiters and no other one,
and no waiter while the event is set and there is no other one. -/
def Quiet (s : State) : Act → Prop
  | .step c spurious =>
    (∀ oldState, s.pc c = .set oldState → spurious = false → s.state = oldState →
      ¬ (oldState ≠ 0 ∧ get_set_count oldState = 0)) ∧
      (s.pc c = .count → ¬ (s.state ≠ 0 ∧ get_waiter_count s.state = 0))
  | _ => True

/-- No operation was popped in a call. -/
def Pc.Unpopped : Pc → Prop
  | .resume call stage => call.waitersToResume = none ∧ call.i < call.waitersToResumeCount ∧
      stage ≠ .subtract ∧ stage ≠ .drop
  | .told => False
  | _ => True

/-- No call of `resumeWaiters` has taken anything. -/
structure Untaken (s : State) : Prop where
  taken : s.taken = []
  dropped : s.dropped = []
  resumed : s.resumed = []
  told : s.told = []
  subtracted : s.subtracted = 0
  pc : ∀ c, (s.pc c).Unpopped
  refCount : ∀ c, s.pc c ≠ .suspended → s.refCount c = 2

section Untaken
variable {s t : State} {c oldState : ℕ} {head : Option ℕ} {spurious : Bool} {pc : Pc} {call : Call}

theorem Untaken.crash (h : Untaken s) : Untaken s.crash :=
  ⟨h.taken, h.dropped, h.resumed, h.told, h.subtracted, h.pc, h.refCount⟩

theorem State.goto_self (s : State) : (s.goto c pc).pc c = pc := Function.update_self ..

theorem State.goto_of_ne (s : State) {d : ℕ} (hd : d ≠ c) : (s.goto c pc).pc d = s.pc d :=
  Function.update_of_ne hd ..

theorem State.decrement_of_ne (s : State) {d : ℕ} (hd : d ≠ c) :
    (s.decrement c).refCount d = s.refCount d :=
  Function.update_of_ne hd ..

theorem Untaken.goto (h : Untaken s) (hc : s.pc c ≠ .suspended) (hpc : pc.Unpopped) :
    Untaken (s.goto c pc) where
  taken := h.taken
  dropped := h.dropped
  resumed := h.resumed
  told := h.told
  subtracted := h.subtracted
  pc d := by
    by_cases hdc : d = c
    · subst hdc
      rw [State.goto_self]
      exact hpc
    · rw [State.goto_of_ne s hdc]
      exact h.pc d
  refCount d hd := by
    by_cases hdc : d = c
    · subst hdc
      exact h.refCount d hc
    · rw [State.goto_of_ne s hdc] at hd
      exact h.refCount d hd

/-- The counters, the lists and the `_next` fields are not looked at. -/
theorem Untaken.fields (h : Untaken s) (state : ℕ) (newWaiters waiters : Option ℕ)
    (next : ℕ → Option ℕ) (pushed : List ℕ) :
    Untaken { s with state, newWaiters, waiters, next, pushed } :=
  ⟨h.taken, h.dropped, h.resumed, h.told, h.subtracted, h.pc, h.refCount⟩

theorem Untaken.setLoop (h : Untaken s) (hc : s.pc c ≠ .suspended) :
    Untaken (s.setLoop c oldState) := by
  unfold State.setLoop
  split_ifs
  · exact h.goto hc trivial
  · exact h.goto hc trivial

theorem Untaken.resetLoop (h : Untaken s) (hc : s.pc c ≠ .suspended) :
    Untaken (s.resetLoop c oldState) := by
  unfold State.resetLoop
  split_ifs
  · exact h.goto hc trivial
  · exact h.goto hc trivial

theorem Untaken.resumeWaiters {suspending : Bool} {initState : ℕ} (h : Untaken s)
    (hc : s.pc c ≠ .suspended) : Untaken (s.resumeWaiters c suspending initState) := by
  unfold State.resumeWaiters
  simp only
  split_ifs with hcount
  · exact h.crash
  · exact h.goto hc ⟨rfl, Nat.pos_of_ne_zero hcount, Stage.noConfusion, Stage.noConfusion⟩

theorem Untaken.setCas (h : Untaken s) (hc : s.pc c ≠ .suspended) :
    Untaken (s.setCas c oldState spurious) := by
  unfold State.setCas
  simp only
  split_ifs
  · exact h.setLoop hc
  · exact (h.fields _ _ _ _ _).resumeWaiters hc
  · exact (h.fields _ _ _ _ _).goto hc trivial

theorem Untaken.resetCas (h : Untaken s) (hc : s.pc c ≠ .suspended) :
    Untaken (s.resetCas c oldState spurious) := by
  unfold State.resetCas
  split_ifs
  · exact h.resetLoop hc
  · exact (h.fields _ _ _ _ _).goto hc trivial

theorem Untaken.push (h : Untaken s) (hc : s.pc c ≠ .suspended) :
    Untaken (s.push c head spurious) := by
  unfold State.push
  simp only
  split_ifs
  · exact (h.fields _ _ _ _ _).goto hc trivial
  · exact (h.fields _ _ _ _ _).goto hc trivial

/-- What the `fetch_add` leaves in the counters does not matter. -/
theorem State.count_eq (s : State) (c : ℕ) : ∃ newState : ℕ, s.count c =
    if s.state ≠ 0 ∧ get_waiter_count s.state = 0 then
      ({ s with state := newState } : State).resumeWaiters c true newState
    else ({ s with state := newState } : State).goto c .release :=
  ⟨_, rfl⟩

theorem Untaken.count (h : Untaken s) (hc : s.pc c ≠ .suspended) : Untaken (s.count c) := by
  obtain ⟨newState, heq⟩ := s.count_eq c
  rw [heq]
  split_ifs
  · exact (h.fields _ _ _ _ _).resumeWaiters hc
  · exact (h.fields _ _ _ _ _).goto hc trivial

theorem Untaken.release (h : Untaken s) (hc : s.pc c ≠ .suspended) : Untaken (s.release c) := by
  have htwo : s.refCount c ≠ 1 := by
    rw [h.refCount c hc]
    decide
  unfold State.release
  rw [if_pos htwo]
  refine ⟨h.taken, h.dropped, h.resumed, h.told, h.subtracted, fun d => ?_, fun d hd => ?_⟩
  · by_cases hdc : d = c
    · subst hdc
      rw [State.goto_self]
      trivial
    · rw [State.goto_of_ne _ hdc]
      exact h.pc d
  · by_cases hdc : d = c
    · subst hdc
      rw [State.goto_self] at hd
      exact absurd rfl hd
    · rw [State.goto_of_ne _ hdc] at hd
      exact (s.decrement_of_ne hdc).trans (h.refCount d hd)

/-- The first pop of a call uses the null pointer. -/
theorem Untaken.resumeStep (h : Untaken s) {stage : Stage} (hc : s.pc c = .resume call stage) :
    Untaken (s.resumeStep c call stage) := by
  have hne : s.pc c ≠ .suspended := by
    rw [hc]
    exact Pc.noConfusion
  have hpc := h.pc c
  rw [hc] at hpc
  obtain ⟨hnull, hi, hsubtract, hdrop⟩ := hpc
  cases stage with
  | pick =>
    unfold State.resumeStep State.pick
    rw [if_pos hi]
    refine h.goto hne ⟨hnull, hi, ?_, ?_⟩
    · split_ifs <;> exact Stage.noConfusion
    · split_ifs <;> exact Stage.noConfusion
  | take =>
    unfold State.resumeStep State.take
    cases s.newWaiters with
    | none => exact h.crash
    | some op =>
      exact (h.fields _ _ _ _ _).goto hne ⟨hnull, hi, Stage.noConfusion, Stage.noConfusion⟩
  | reverse op =>
    unfold State.resumeStep State.reverse
    refine (h.fields _ _ _ _ _).goto hne ⟨hnull, hi, ?_, ?_⟩
    · cases s.next op <;> exact Stage.noConfusion
    · cases s.next op <;> exact Stage.noConfusion
  | pop =>
    unfold State.resumeStep State.pop
    rw [hnull]
    cases s.waiters <;> exact h.crash
  | subtract => exact absurd rfl hsubtract
  | drop => exact absurd rfl hdrop

theorem Untaken.step (h : Untaken s) {a : Act} (hs : Step s a t) : Untaken t := by
  have hne : ∀ {c pc}, s.pc c = pc → pc ≠ .suspended → s.pc c ≠ .suspended := by
    intro c pc hc hpc
    rw [hc]
    exact hpc
  cases hs with
  | awaitSuspend hc => exact h.goto (hne hc Pc.noConfusion) trivial
  | set hc => exact h.setLoop (hne hc Pc.noConfusion)
  | reset hc => exact h.resetLoop (hne hc Pc.noConfusion)
  | load hc => exact h.goto (hne hc Pc.noConfusion) trivial
  | push hc => exact h.push (hne hc Pc.noConfusion)
  | count hc => exact h.count (hne hc Pc.noConfusion)
  | release hc => exact h.release (hne hc Pc.noConfusion)
  | setCas hc => exact h.setCas (hne hc Pc.noConfusion)
  | resetCas hc => exact h.resetCas (hne hc Pc.noConfusion)
  | resume hc => exact h.resumeStep hc

end Untaken

/-- The operation, if there is one, was not pushed yet. -/
def Pc.Unpushed : Pc → Prop
  | .count | .release | .suspended | .told | .resume _ _ => False
  | _ => True

def Pc.Outside : Pc → Prop
  | .resume _ _ => False
  | _ => True

theorem Pc.Outside.not_resuming {pc : Pc} (h : pc.Outside) : ¬ pc.Resuming := by
  rintro ⟨call, stage, rfl⟩
  exact h

/-- Before the first call of `resumeWaiters` all operations are in `_newWaiters`, the last one
first. -/
structure Queued (s : State) : Prop where
  safe : s.crashed = false
  waiters : s.waiters = none
  chain : Chain s.next s.newWaiters s.pushed.reverse
  distinct : s.pushed.Nodup
  fresh : ∀ c, (s.pc c).Unpushed → c ∉ s.pushed
  idle : ∀ c, ¬ (s.pc c).Resuming

section Queued
variable {s t : State} {c oldState : ℕ} {head : Option ℕ} {spurious : Bool} {pc : Pc}

theorem Queued.goto (h : Queued s) (hout : pc.Outside)
    (hfresh : pc.Unpushed → (s.pc c).Unpushed) : Queued (s.goto c pc) where
  safe := h.safe
  waiters := h.waiters
  chain := h.chain
  distinct := h.distinct
  fresh d hd := by
    by_cases hdc : d = c
    · subst hdc
      rw [State.goto_self] at hd
      exact h.fresh d (hfresh hd)
    · rw [State.goto_of_ne s hdc] at hd
      exact h.fresh d hd
  idle d := by
    by_cases hdc : d = c
    · subst hdc
      rw [State.goto_self]
      exact hout.not_resuming
    · rw [State.goto_of_ne s hdc]
      exact h.idle d

theorem Queued.word (h : Queued s) (state : ℕ) : Queued { s with state } :=
  ⟨h.safe, h.waiters, h.chain, h.distinct, h.fresh, h.idle⟩

theorem Queued.setLoop (h : Queued s) (hc : (s.pc c).Unpushed) :
    Queued (s.setLoop c oldState) := by
  unfold State.setLoop
  split_ifs
  · exact h.goto trivial fun _ => hc
  · exact h.goto trivial fun _ => hc

theorem Queued.resetLoop (h : Queued s) (hc : (s.pc c).Unpushed) :
    Queued (s.resetLoop c oldState) := by
  unfold State.resetLoop
  split_ifs
  · exact h.goto trivial fun _ => hc
  · exact h.goto trivial fun _ => hc

theorem Queued.setCas (h : Queued s) (hc : (s.pc c).Unpushed)
    (hquiet : spurious = false → s.state = oldState →
      ¬ (oldState ≠ 0 ∧ get_set_count oldState = 0)) :
    Queued (s.setCas c oldState spurious) := by
  unfold State.setCas
  simp only
  split_ifs with hfail hcall
  · exact h.setLoop hc
  · obtain ⟨hspurious, hstate⟩ := not_or.mp hfail
    exact absurd hcall (hquiet (Bool.eq_false_iff.mpr hspurious) (not_not.mp hstate))
  · exact (h.word _).goto trivial fun _ => hc

theorem Queued.resetCas (h : Queued s) (hc : (s.pc c).Unpushed) :
    Queued (s.resetCas c oldState spurious) := by
  unfold State.resetCas
  split_ifs
  · exact h.resetLoop hc
  · exact (h.word _).goto trivial fun _ => hc

/-- A `_next` field of an operation that was not pushed is written. -/
theorem Queued.link (h : Queued s) (hc : c ∉ s.pushed) (q : Option ℕ) :
    Queued { s with next := Function.update s.next c q } where
  safe := h.safe
  waiters := h.waiters
  chain := h.chain.update (mt List.mem_reverse.mp hc)
  distinct := h.distinct
  fresh := h.fresh
  idle := h.idle

theorem Queued.push (h : Queued s) (hc : (s.pc c).Unpushed) :
    Queued (s.push c head spurious) := by
  have hnew : c ∉ s.pushed := h.fresh c hc
  unfold State.push
  simp only
  split_ifs with hfail
  · exact (h.link hnew head).goto trivial fun _ => hc
  · have hhead : s.newWaiters = head := not_not.mp (not_or.mp hfail).2
    have hchain := h.chain.push (mt List.mem_reverse.mp hnew)
    rw [hhead] at hchain
    refine ⟨h.safe, h.waiters, ?_, ?_, fun d hd => ?_, fun d => ?_⟩
    · have hreverse : (s.pushed ++ [c]).reverse = c :: s.pushed.reverse := List.reverse_append
      exact hreverse ▸ hchain
    · exact List.nodup_append.mpr ⟨h.distinct, List.nodup_singleton c, fun a ha b hb heq =>
        hnew (List.mem_singleton.mp hb ▸ heq ▸ ha)⟩
    · by_cases hdc : d = c
      · subst hdc
        rw [State.goto_self] at hd
        exact absurd hd id
      · rw [State.goto_of_ne _ hdc] at hd
        exact fun hmem => (List.mem_append.mp hmem).elim (h.fresh d hd) fun hd' =>
          hdc (List.mem_singleton.mp hd')
    · by_cases hdc : d = c
      · subst hdc
        rw [State.goto_self]
        exact Pc.Outside.not_resuming trivial
      · rw [State.goto_of_ne _ hdc]
        exact h.idle d

theorem Queued.count (h : Queued s)
    (hquiet : ¬ (s.state ≠ 0 ∧ get_waiter_count s.state = 0)) : Queued (s.count c) := by
  obtain ⟨newState, heq⟩ := s.count_eq c
  rw [heq, if_neg hquiet]
  exact (h.word newState).goto trivial fun hpc => absurd hpc id

theorem Queued.release (h : Queued s) : Queued (s.release c) := by
  have hdecrement : Queued (s.decrement c) :=
    ⟨h.safe, h.waiters, h.chain, h.distinct, h.fresh, h.idle⟩
  unfold State.release
  split_ifs
  · exact hdecrement.goto trivial fun hpc => absurd hpc id
  · have htold : Queued { s.decrement c with told := s.told ++ [c] } :=
      ⟨h.safe, h.waiters, h.chain, h.distinct, h.fresh, h.idle⟩
    exact htold.goto trivial fun hpc => absurd hpc id

theorem Queued.step (h : Queued s) {a : Act} (hquiet : Quiet s a) (hs : Step s a t) :
    Queued t := by
  have hin : ∀ {c pc}, s.pc c = pc → pc.Unpushed → (s.pc c).Unpushed := by
    intro c pc hc hpc
    rw [hc]
    exact hpc
  cases hs with
  | awaitSuspend hc => exact h.goto trivial fun _ => hin hc trivial
  | set hc => exact h.setLoop (hin hc trivial)
  | reset hc => exact h.resetLoop (hin hc trivial)
  | load hc => exact h.goto trivial fun _ => hin hc trivial
  | push hc => exact h.push (hin hc trivial)
  | count hc => exact h.count (hquiet.2 hc)
  | release hc => exact h.release
  | setCas hc => exact h.setCas (hin hc trivial) (hquiet.1 _ hc)
  | resetCas hc => exact h.resetCas (hin hc trivial)
  | @resume c _ call stage hc => exact absurd ⟨call, stage, hc⟩ (h.idle c)

end Queued

section Runs
variable {initiallySet : Bool} {s : State}

theorem untaken_start : Untaken (.start initiallySet) :=
  ⟨rfl, rfl, rfl, rfl, rfl, fun _ => trivial, fun _ _ => rfl⟩

theorem queued_start : Queued (.start initiallySet) :=
  ⟨rfl, rfl, rfl, .nil, fun _ _ hc => absurd hc List.not_mem_nil,
    fun _ => Pc.Outside.not_resuming trivial⟩

/-- No call of `resumeWaiters` ever takes an operation off the lists. -/
theorem untaken_of_reachable (hs : (system initiallySet).Reachable s) : Untaken s := by
  have hind : (system initiallySet).Inductive (fun _ _ => True) Untaken :=
    ⟨fun s hs => hs ▸ untaken_start, fun s a t h _ hn => h.step (step_of_next hn)⟩
  exact hind.holds hs

theorem queued_of_quiet (hs : (system initiallySet).ReachableBy Quiet s) : Queued s := by
  have hind : (system initiallySet).Inductive Quiet Queued :=
    ⟨fun s hs => hs ▸ queued_start, fun s a t h hok hn => h.step hok (step_of_next hn)⟩
  exact hind.holds hs

theorem lossless_of_queued (hu : Untaken s) (hq : Queued s) : Lossless s where
  safe := hq.safe
  fifo := hu.taken ▸ List.nil_prefix
  distinct := hq.distinct
  exact _ := by rw [hu.taken, hu.subtracted]; rfl
  dropped _ := hu.dropped.trans hu.taken.symm
  once _ op _ := by rw [hu.resumed, hu.told, hu.taken]; rfl
  queued _ := ⟨[], s.pushed.reverse, hq.waiters, hq.chain, by
    rw [hu.taken, List.reverse_reverse, List.append_nil, List.nil_append]⟩

end Runs

section Crash
variable {initiallySet : Bool} {s t : State} {c : ℕ} {call : Call}

/-- Some steps lead to a crash. -/
def Crashes (initiallySet : Bool) (s : State) : Prop :=
  ∃ u, (system initiallySet).Leads s u ∧ u.crashed = true

theorem crashes_step {stage : Stage} (hc : s.pc c = .resume call stage)
    (h : Crashes initiallySet (s.resumeStep c call stage)) : Crashes initiallySet s := by
  cases hcrashed : s.crashed with
  | true => exact ⟨s, .refl s, hcrashed⟩
  | false =>
    obtain ⟨u, hu, hcrash⟩ := h
    refine ⟨u, .head (a := .step c false) trivial ?_ hu, hcrash⟩
    show next s (.step c false) = _
    simp only [next, hcrashed, hc, Bool.false_eq_true, if_false]

theorem crashes_pop (hc : s.pc c = .resume call .pop) (hnull : call.waitersToResume = none) :
    Crashes initiallySet s := by
  refine crashes_step hc ⟨s.crash, ?_, rfl⟩
  have heq : s.resumeStep c call .pop = s.crash := by
    unfold State.resumeStep State.pop
    rw [hnull]
    cases s.waiters <;> rfl
  rw [heq]
  exact .refl _

/-- The loop that moves the new waiters comes to their end, and to the pop. -/
theorem crashes_reverse {op : ℕ} {l : List ℕ} (hc : s.pc c = .resume call (.reverse op))
    (hnull : call.waitersToResume = none) (hchain : Chain s.next (s.next op) l)
    (hdistinct : (op :: l).Nodup) : Crashes initiallySet s := by
  obtain ⟨hop, hl⟩ := List.nodup_cons.mp hdistinct
  induction l generalizing s op with
  | nil =>
    have hnext : s.next op = none := hchain
    have hpop : (s.resumeStep c call (.reverse op)).pc c = .resume call .pop := by
      unfold State.resumeStep State.reverse
      rw [State.goto_self, hnext]
    exact crashes_step hc (crashes_pop hpop hnull)
  | cons a l ih =>
    obtain ⟨hnext, hrest⟩ := hchain
    obtain ⟨ha, hlnodup⟩ := List.nodup_cons.mp hl
    have hne : a ≠ op := fun heq => hop (heq ▸ List.mem_cons_self)
    have hnot : op ∉ l := fun hmem => hop (List.mem_cons_of_mem a hmem)
    have hreverse : (s.resumeStep c call (.reverse op)).pc c = .resume call (.reverse a) := by
      unfold State.resumeStep State.reverse
      rw [State.goto_self, hnext]
    have hlist : Chain (Function.update s.next op s.waiters)
        (Function.update s.next op s.waiters a) l := by
      rw [Function.update_of_ne hne]
      exact hrest.update hnot
    exact crashes_step hc (ih hreverse hlist hl ha hlnodup)

/-- Once it is called from here, `resumeWaiters` comes to its first pop. -/
theorem crashes_resumeWaiters {suspending : Bool} {initState : ℕ} (h : Queued s) :
    Crashes initiallySet (s.resumeWaiters c suspending initState) := by
  unfold State.resumeWaiters
  simp only
  split_ifs with hcount
  · exact ⟨s.crash, .refl _, rfl⟩
  · refine crashes_step (State.goto_self s) ?_
    unfold State.resumeStep State.pick
    simp only [if_pos (Nat.pos_of_ne_zero hcount)]
    have hwaiters : (s.goto c (.resume ⟨suspending, none, .waitersToResume,
        get_resumable_waiter_count initState, 0⟩ .pick)).waiters = none := h.waiters
    rw [if_pos hwaiters]
    refine crashes_step (State.goto_self _) ?_
    unfold State.resumeStep State.take
    have hchain := h.chain
    cases hnew : s.newWaiters with
    | none =>
      have hnone : ∀ pc pc' : Pc, ((s.goto c pc).goto c pc').newWaiters = none := fun _ _ => hnew
      rw [hnone]
      exact ⟨_, .refl _, rfl⟩
    | some op =>
      have hsome : ∀ pc pc' : Pc, ((s.goto c pc).goto c pc').newWaiters = some op :=
        fun _ _ => hnew
      rw [hsome]
      rw [hnew] at hchain
      obtain ⟨l, hl, hrest⟩ := hchain.exists_cons
      have hdistinct : (op :: l).Nodup := hl ▸ List.nodup_reverse.mpr h.distinct
      exact crashes_reverse (State.goto_self _) rfl hrest hdistinct

/-- A call of `resumeWaiters` begins. -/
theorem crashes_of_not_quiet (h : Queued s) {a : Act} (hquiet : ¬ Quiet s a)
    (hn : next s a = some t) : Crashes initiallySet t := by
  have hcrashed := h.safe
  cases a with
  | step c spurious =>
    simp only [next, hcrashed, Bool.false_eq_true, if_false] at hn
    rcases not_and_or.mp hquiet with hset | hcount
    · push Not at hset
      obtain ⟨oldState, hc, hspurious, hstate, hne, hzero⟩ := hset
      rw [hc] at hn
      have heq : s.setCas c oldState spurious = ({ s with
          state := (oldState + SET_INCREMENT) % 2 ^ 64 } : State).resumeWaiters c false
            ((oldState + SET_INCREMENT) % 2 ^ 64) := by
        unfold State.setCas
        rw [if_neg (by simp [hspurious, hstate]), if_pos ⟨hne, hzero⟩]
      rw [← Option.some.inj hn, heq]
      exact crashes_resumeWaiters (h.word _)
    · push Not at hcount
      obtain ⟨hc, hcall⟩ := hcount
      rw [hc] at hn
      obtain ⟨newState, heq⟩ := s.count_eq c
      rw [← Option.some.inj hn, heq, if_pos hcall]
      exact crashes_resumeWaiters (h.word newState)
  | _ => exact absurd trivial hquiet

end Crash

/-- The queue works in the runs in which `resumeWaiters` is not called; a call crashes. -/
theorem lossless_of_quiet (initiallySet : Bool) (s : State)
    (hs : (system initiallySet).ReachableBy Quiet s) :
    Lossless s ∧ ∀ a t, next s a = some t → ¬ Quiet s a →
      ∃ u, (system initiallySet).Leads t u ∧ ¬ Lossless u := by
  have hq := queued_of_quiet hs
  refine ⟨lossless_of_queued (untaken_of_reachable hs.reachable) hq, fun a t hn hquiet => ?_⟩
  obtain ⟨u, hu, hcrash⟩ := crashes_of_not_quiet hq hquiet hn
  refine ⟨u, hu, fun h => ?_⟩
  have hsafe := h.safe
  rw [hcrash] at hsafe
  cases hsafe

/-- Two operations are queued. -/
def awaitTwice : List Act :=
  [.awaitSuspend 1, .awaitSuspend 2, .step 1 false, .step 2 false, .step 2 false, .step 1 false,
    .step 1 false, .step 1 false, .step 1 false, .step 2 false]

/-- Passes the steps that meet `Quiet`. -/
def quiet (s : State) : Act → Bool
  | .step c spurious =>
    match s.pc c with
    | .set oldState =>
      spurious || s.state ≠ oldState || oldState = 0 || get_set_count oldState ≠ 0
    | .count => s.state = 0 || get_waiter_count s.state ≠ 0
    | _ => true
  | _ => true

theorem quiet_sound (s : State) (a : Act) (h : quiet s a = true) : Quiet s a := by
  cases a with
  | step c spurious =>
    refine ⟨fun oldState hc hspurious hstate hcall => ?_, fun hc hcall => ?_⟩
    · simp [quiet, hc, hspurious, hstate, hcall.1, hcall.2] at h
    · simp [quiet, hc, hcall.1, hcall.2] at h
  | _ => trivial

theorem lossless_of_quiet_two :
    ∃ s, (system false).ReachableBy Quiet s ∧ s.pushed = [2, 1] ∧ Lossless s := by
  obtain ⟨s, hs, hpushed⟩ := (system false).exists_reachableBy_of_runIf quiet awaitTwice
    (fun s => s.pushed = [2, 1]) quiet_sound rfl (by decide)
  exact ⟨s, hs, of_decide_eq_true hpushed, (lossless_of_quiet false s hs).1⟩

/-- One waiter and then a `set`. -/
theorem exists_not_lossless : ∃ s, (system false).Reachable s ∧ ¬ Lossless s := by
  obtain ⟨s, hs, hcrashed⟩ := (system false).exists_reachable_of_run
    [.awaitSuspend 1, .step 1 false, .step 1 false, .step 1 false, .step 1 false, .set 0,
      .step 0 false, .step 0 false, .step 0 false, .step 0 false, .step 0 false]
    State.crashed rfl (by decide)
  refine ⟨s, hs, fun h => ?_⟩
  have hsafe := h.safe
  rw [hcrashed] at hsafe
  cases hsafe

end Suil.Async.WaiterQueue
