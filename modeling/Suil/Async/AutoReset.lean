import Suil.Lib.Transition
import Mathlib.Data.Nat.Notation
import Mathlib.Logic.Function.Basic
import Mathlib.Tactic.ByContra
import Mathlib.Tactic.SplitIfs
import Mathlib.Algebra.Ring.Nat

/-! `AutoResetEvent`: `operator co_await`, `set`, `reset` and what they lead to. A coroutine
and the operation it awaits share a number, and so do a thread and its call of `set` or
`reset`. One step is one atomic operation or one turn of a loop of `resumeWaiters`. -/
namespace Suil.Async.AutoReset
open Transition

def SET_INCREMENT : ℕ := 1
def WAITER_INCREMENT : ℕ := 2 ^ 32

def get_set_count (state : ℕ) : ℕ := state % 2 ^ 32
def get_waiter_count (state : ℕ) : ℕ := state / 2 ^ 32 % 2 ^ 32

def get_resumable_waiter_count (state : ℕ) : ℕ :=
  min (get_waiter_count state) (get_set_count state)

/-- `resumeWaiters`: the exchange of `_newWaiters`, the loop that moves its items to
`_waiters`, and the pop. The pop writes through `waitersToResume`, which is still null. -/
inductive ResumeStage
  | take
  | reverse (newWaiters : ℕ)
  | pop
  deriving DecidableEq

/-- Where a coroutine or thread is; `aborted` is a failed assertion or a null pointer. -/
inductive Pc
  | out
  | acquire (oldState : ℕ)
  | suspend
  | push (head : Option ℕ)
  | count
  | release
  | suspended
  | set (oldState : ℕ)
  | reset (oldState : ℕ)
  | resume (st : ResumeStage)
  | aborted
  deriving DecidableEq

/-- `event`, `next` and `refCount` are the fields of the operations, `event` tells whether
`_event` points to the event. The rest are ghosts: the calls of `set` that have found the
event set or have set it, the `co_await`s completed, for a `co_await` made while the set
count did not exceed the waiter count the value of `sets` then, and how many of these
completed before a later `set`. -/
structure State where
  state : ℕ
  newWaiters : Option ℕ
  waiters : Option ℕ
  event : ℕ → Bool
  next : ℕ → Option ℕ
  refCount : ℕ → ℕ
  pc : ℕ → Pc
  sets : ℕ
  done : ℕ
  madeAt : ℕ → Option ℕ
  early : ℕ

namespace State

def start (initiallySet : Bool) : State where
  state := if initiallySet then SET_INCREMENT else 0
  newWaiters := none
  waiters := none
  event _ := false
  next _ := none
  refCount _ := 0
  pc _ := .out
  sets := 0
  done := 0
  madeAt _ := none
  early := 0

variable (s : State)

def goto (c : ℕ) (pc : Pc) : State := { s with pc := Function.update s.pc c pc }

@[simp] theorem goto_state (c : ℕ) (pc : Pc) : (s.goto c pc).state = s.state := rfl
@[simp] theorem goto_sets (c : ℕ) (pc : Pc) : (s.goto c pc).sets = s.sets := rfl
@[simp] theorem goto_done (c : ℕ) (pc : Pc) : (s.goto c pc).done = s.done := rfl
@[simp] theorem goto_early (c : ℕ) (pc : Pc) : (s.goto c pc).early = s.early := rfl
@[simp] theorem goto_madeAt (c : ℕ) (pc : Pc) : (s.goto c pc).madeAt = s.madeAt := rfl

/-- The event is set for more than those who wait. -/
def available (state : ℕ) : Prop := get_waiter_count state < get_set_count state

instance (state : ℕ) : Decidable (available state) := inferInstanceAs (Decidable (_ < _))

/-- The `co_await` of `c` goes on with `await_resume`. -/
def complete (c : ℕ) : State :=
  { s with
    done := s.done + 1
    early := if s.madeAt c = some s.sets then s.early + 1 else s.early }.goto c .out

/-- `operator co_await` returns `auto_reset_event_operation{}`, or `{*this}` if `event`; then
`await_ready`. -/
def operation (c : ℕ) (event : Bool) : State :=
  let s := { s with
    event := Function.update s.event c event
    next := Function.update s.next c none
    refCount := Function.update s.refCount c (if event then 2 else 0) }
  if event then s.goto c .suspend else s.complete c

/-- The load of `operator co_await`. -/
def coAwait (c : ℕ) : State :=
  if available s.state then
    { s with madeAt := Function.update s.madeAt c none }.goto c (.acquire s.state)
  else { s with madeAt := Function.update s.madeAt c (some s.sets) }.operation c false

/-- `compare_exchange_strong`; the operation returned does not depend on its result. -/
def acquire (c oldState : ℕ) : State :=
  if s.state = oldState then
    { s with state := (oldState + 2 ^ 64 - SET_INCREMENT) % 2 ^ 64 }.operation c false
  else s.operation c false

/-- The head of the loop of `set`. -/
def setLoop (t oldState : ℕ) : State :=
  if available oldState then { s with sets := s.sets + 1 }.goto t .out
  else s.goto t (.set oldState)

/-- The head of the loop of `reset`. -/
def resetLoop (t oldState : ℕ) : State :=
  if available oldState then s.goto t (.reset oldState) else s.goto t .out

/-- The first assertion of `resumeWaiters` and its test of `_waiters`. -/
def resumeWaiters (t initState : ℕ) : State :=
  if get_resumable_waiter_count initState = 0 then s.goto t .aborted
  else s.goto t (.resume (if s.waiters = none then .take else .pop))

def setCas (t oldState : ℕ) (spurious : Bool) : State :=
  if spurious ∨ s.state ≠ oldState then s.setLoop t s.state
  else
    let newState := (oldState + SET_INCREMENT) % 2 ^ 64
    let s := { s with state := newState, sets := s.sets + 1 }
    if oldState ≠ 0 ∧ get_set_count oldState = 0 then s.resumeWaiters t newState
    else s.goto t .out

def resetCas (t oldState : ℕ) (spurious : Bool) : State :=
  if spurious ∨ s.state ≠ oldState then s.resetLoop t s.state
  else { s with state := (oldState + 2 ^ 64 - SET_INCREMENT) % 2 ^ 64 }.goto t .out

/-- The compare-exchange of `await_suspend`, with the write of `_next` before it. -/
def push (c : ℕ) (head : Option ℕ) (spurious : Bool) : State :=
  let s := { s with next := Function.update s.next c head }
  if spurious ∨ s.newWaiters ≠ head then s.goto c (.push s.newWaiters)
  else { s with newWaiters := some c }.goto c .count

/-- `fetch_add` in `await_suspend`. -/
def count (c : ℕ) : State :=
  let newState := (s.state + WAITER_INCREMENT) % 2 ^ 64
  let s' := { s with state := newState }
  if s.state ≠ 0 ∧ get_waiter_count s.state = 0 then s'.resumeWaiters c newState
  else s'.goto c .release

/-- The last `fetch_sub` of `await_suspend`. -/
def release (c : ℕ) : State :=
  let s' := { s with refCount := Function.update s.refCount c (s.refCount c - 1) }
  if s.refCount c ≠ 1 then s'.goto c .suspended else s'.complete c

def resumeStep (t : ℕ) : ResumeStage → State
  | .take =>
    match s.newWaiters with
    | none => s.goto t .aborted
    | some op => { s with newWaiters := none }.goto t (.resume (.reverse op))
  | .reverse op =>
    { s with next := Function.update s.next op s.waiters, waiters := some op }.goto t
      (.resume (match s.next op with
        | some next => .reverse next
        | none => .pop))
  | .pop => s.goto t .aborted

end State

inductive Act
  | coAwait (c : ℕ)
  | set (t : ℕ)
  | reset (t : ℕ)
  | step (c : ℕ) (spurious : Bool)

def next (s : State) : Act → Option State
  | .coAwait c => if s.pc c = .out then some (s.coAwait c) else none
  | .set t => if s.pc t = .out then some (s.setLoop t s.state) else none
  | .reset t => if s.pc t = .out then some (s.resetLoop t s.state) else none
  | .step c spurious =>
    match s.pc c with
    | .acquire oldState => some (s.acquire c oldState)
    | .suspend => some (s.goto c (.push s.newWaiters))
    | .push head => some (s.push c head spurious)
    | .count => some (s.count c)
    | .release => some (s.release c)
    | .set oldState => some (s.setCas c oldState spurious)
    | .reset oldState => some (s.resetCas c oldState spurious)
    | .resume st => some (s.resumeStep c st)
    | .out | .suspended | .aborted => none

def system (initiallySet : Bool) : System State Act where
  init s := s = .start initiallySet
  next := next

/-- No more `co_await`s have completed than the event was set, and none that was made while
it was not available has completed before a later `set`. -/
structure Counted (initiallySet : Bool) (s : State) : Prop where
  law : s.done ≤ s.sets + initiallySet.toNat
  early : s.early = 0

/-- A `co_await` finds the event available and wins the compare-exchange. -/
def Consumes (s : State) : Act → Prop
  | .coAwait _ => State.available s.state
  | .step c _ => ∀ oldState, s.pc c = .acquire oldState → s.state = oldState
  | _ => True

/-- Nothing is ever queued: a coroutine or thread is in one of the three loops, and each has
read the one value that sends it there. -/
def Pc.Unqueued : Pc → Prop
  | .out => True
  | .acquire oldState | .reset oldState => oldState = 1
  | .set oldState => oldState = 0
  | _ => False

/-- No coroutine waits, and the event counts at most one `set`. -/
structure Idle (s : State) : Prop where
  state : s.state ≤ 1
  newWaiters : s.newWaiters = none
  waiters : s.waiters = none
  pc : ∀ c, (s.pc c).Unqueued

theorem available_iff {n : ℕ} (h : n ≤ 1) : State.available n ↔ n = 1 := by
  rcases Nat.le_one_iff_eq_zero_or_eq_one.mp h with rfl | rfl <;> decide

section Idle
variable {s t : State} {c oldState : ℕ} {spurious : Bool} {pc : Pc}

theorem Idle.goto (h : Idle s) (hpc : pc.Unqueued) : Idle (s.goto c pc) where
  state := h.state
  newWaiters := h.newWaiters
  waiters := h.waiters
  pc d := by
    by_cases hd : d = c
    · subst hd
      simpa [State.goto] using hpc
    · simpa [State.goto, hd] using h.pc d

theorem Idle.operation (h : Idle s) : Idle (s.operation c false) := by
  have hout : Pc.Unqueued .out := trivial
  unfold State.operation State.complete
  exact Idle.goto ⟨h.state, h.newWaiters, h.waiters, h.pc⟩ hout

theorem word_set : (0 + SET_INCREMENT) % 2 ^ 64 = 1 := by decide

theorem word_reset : (1 + 2 ^ 64 - SET_INCREMENT) % 2 ^ 64 = 0 := by decide

theorem Idle.coAwait (h : Idle s) : Idle (s.coAwait c) := by
  unfold State.coAwait
  split_ifs with ha
  · refine Idle.goto ⟨h.state, h.newWaiters, h.waiters, h.pc⟩ ?_
    exact (available_iff h.state).mp ha
  · exact Idle.operation ⟨h.state, h.newWaiters, h.waiters, h.pc⟩

theorem Idle.acquire (h : Idle s) (hold : oldState = 1) : Idle (s.acquire c oldState) := by
  subst hold
  unfold State.acquire
  split_ifs
  · rw [word_reset]
    exact Idle.operation ⟨Nat.zero_le 1, h.newWaiters, h.waiters, h.pc⟩
  · exact h.operation

theorem Idle.setLoop (h : Idle s) : Idle (s.setLoop c s.state) := by
  unfold State.setLoop
  split_ifs with ha
  · exact Idle.goto ⟨h.state, h.newWaiters, h.waiters, h.pc⟩ trivial
  · refine h.goto ?_
    have hle := h.state
    have hne : s.state ≠ 1 := fun h1 => ha ((available_iff h.state).mpr h1)
    show s.state = 0
    omega

theorem Idle.resetLoop (h : Idle s) : Idle (s.resetLoop c s.state) := by
  unfold State.resetLoop
  split_ifs with ha
  · exact h.goto ((available_iff h.state).mp ha)
  · exact h.goto trivial

theorem Idle.setCas (h : Idle s) (hold : oldState = 0) : Idle (s.setCas c oldState spurious) := by
  subst hold
  unfold State.setCas
  split_ifs with hfail hres
  · exact h.setLoop
  · exact absurd rfl hres.1
  · rw [word_set]
    exact Idle.goto ⟨Nat.le_refl 1, h.newWaiters, h.waiters, h.pc⟩ trivial

theorem Idle.resetCas (h : Idle s) (hold : oldState = 1) :
    Idle (s.resetCas c oldState spurious) := by
  subst hold
  unfold State.resetCas
  split_ifs with hfail
  · exact h.resetLoop
  · rw [word_reset]
    exact Idle.goto ⟨Nat.zero_le 1, h.newWaiters, h.waiters, h.pc⟩ trivial

/-- The steps of a call that are reached. -/
theorem Idle.step_cases (h : Idle s) (hn : AutoReset.next s (.step c spurious) = some t) :
    (∃ old, s.pc c = .acquire old ∧ old = 1 ∧ t = s.acquire c old) ∨
      (∃ old, s.pc c = .set old ∧ old = 0 ∧ t = s.setCas c old spurious) ∨
      ∃ old, s.pc c = .reset old ∧ old = 1 ∧ t = s.resetCas c old spurious := by
  have hpc := h.pc c
  simp only [AutoReset.next] at hn
  cases heq : s.pc c with
  | out =>
    rw [heq] at hn
    cases hn
  | acquire old =>
    rw [heq] at hn hpc
    exact .inl ⟨old, rfl, hpc, (Option.some.inj hn).symm⟩
  | set old =>
    rw [heq] at hn hpc
    exact .inr (.inl ⟨old, rfl, hpc, (Option.some.inj hn).symm⟩)
  | reset old =>
    rw [heq] at hn hpc
    exact .inr (.inr ⟨old, rfl, hpc, (Option.some.inj hn).symm⟩)
  | _ =>
    rw [heq] at hpc
    exact absurd hpc id

theorem Idle.next (h : Idle s) {a : Act} (hn : next s a = some t) : Idle t := by
  cases a with
  | coAwait c =>
    obtain ⟨-, hn⟩ := Option.ite_none_right_eq_some.mp hn
    exact Option.some.inj hn ▸ h.coAwait
  | set c =>
    obtain ⟨-, hn⟩ := Option.ite_none_right_eq_some.mp hn
    exact Option.some.inj hn ▸ h.setLoop
  | reset c =>
    obtain ⟨-, hn⟩ := Option.ite_none_right_eq_some.mp hn
    exact Option.some.inj hn ▸ h.resetLoop
  | step c spurious =>
    obtain ⟨old, -, hold, rfl⟩ | ⟨old, -, hold, rfl⟩ | ⟨old, -, hold, rfl⟩ := h.step_cases hn
    · exact h.acquire hold
    · exact h.setCas hold
    · exact h.resetCas hold

end Idle

/-- `await_suspend` and `resumeWaiters` are never reached, whatever the callers do. -/
theorem idle_of_reachable {initiallySet : Bool} {s : State}
    (hs : (system initiallySet).Reachable s) : Idle s := by
  have hind : (system initiallySet).Inductive (fun _ _ => True) Idle := by
    constructor
    · rintro s rfl
      cases initiallySet
      · exact ⟨by decide, rfl, rfl, fun _ => trivial⟩
      · exact ⟨by decide, rfl, rfl, fun _ => trivial⟩
    · exact fun s a t h _ hn => h.next hn
  exact hind.holds hs

/-- A completed `co_await` has taken the one the event counts or counted before; a call that
is about to take it was not made too early. -/
structure Inv (initiallySet : Bool) (s : State) : Prop where
  idle : Idle s
  law : s.done + s.state ≤ s.sets + initiallySet.toNat
  early : s.early = 0
  fresh : ∀ c oldState, s.pc c = .acquire oldState → s.madeAt c = none

section Counting
variable {initiallySet : Bool} {s t : State} {c oldState : ℕ} {spurious : Bool} {pc : Pc}

theorem fresh_goto {madeAt : ℕ → Option ℕ}
    (h : ∀ d old, s.pc d = .acquire old → madeAt d = none)
    (hpc : ∀ old, pc = .acquire old → madeAt c = none) :
    ∀ d old, (s.goto c pc).pc d = .acquire old → madeAt d = none := by
  intro d old hd
  by_cases hdc : d = c
  · subst hdc
    exact hpc old (by simpa [State.goto] using hd)
  · exact h d old (by simpa [State.goto, hdc] using hd)

theorem Inv.coAwait (h : Inv initiallySet s) (ha : State.available s.state) :
    Inv initiallySet (s.coAwait c) := by
  refine ⟨h.idle.coAwait, ?_, ?_, ?_⟩
  all_goals
    unfold State.coAwait
    rw [if_pos ha]
  · exact h.law
  · exact h.early
  · refine fresh_goto (fun d old hd => ?_) fun old _ => Function.update_self ..
    by_cases hdc : d = c
    · simp [hdc]
    · simpa [hdc] using h.fresh d old hd

/-- The one step that completes a `co_await`. -/
theorem Inv.acquire (h : Inv initiallySet s) (hpc : s.pc c = .acquire oldState)
    (hold : s.state = oldState) : Inv initiallySet (s.acquire c oldState) := by
  have hone : oldState = 1 := by
    have := h.idle.pc c
    rwa [hpc] at this
  subst hone
  have hlaw := h.law
  have hmade := h.fresh c 1 hpc
  refine ⟨h.idle.acquire rfl, ?_, ?_, ?_⟩
  all_goals
    unfold State.acquire
    rw [if_pos hold, word_reset]
  · show s.done + 1 + 0 ≤ _
    rwa [hold] at hlaw
  · show (if s.madeAt c = some s.sets then s.early + 1 else s.early) = 0
    rw [hmade, if_neg nofun]
    exact h.early
  · exact fresh_goto h.fresh nofun

theorem Inv.setLoop (h : Inv initiallySet s) : Inv initiallySet (s.setLoop c s.state) := by
  have hlaw := h.law
  refine ⟨h.idle.setLoop, ?_, ?_, ?_⟩
  all_goals
    unfold State.setLoop
    split_ifs with ha
  · show s.done + s.state ≤ s.sets + 1 + _
    omega
  · exact hlaw
  · exact h.early
  · exact h.early
  · exact fresh_goto h.fresh nofun
  · exact fresh_goto h.fresh nofun

theorem Inv.resetLoop (h : Inv initiallySet s) : Inv initiallySet (s.resetLoop c s.state) := by
  refine ⟨h.idle.resetLoop, ?_, ?_, ?_⟩
  all_goals
    unfold State.resetLoop
    split_ifs with ha
  · exact h.law
  · exact h.law
  · exact h.early
  · exact h.early
  · exact fresh_goto h.fresh nofun
  · exact fresh_goto h.fresh nofun

theorem Inv.setCas (h : Inv initiallySet s) (hold : oldState = 0) :
    Inv initiallySet (s.setCas c oldState spurious) := by
  have hidle : Idle (s.setCas c oldState spurious) := h.idle.setCas hold
  subst hold
  unfold State.setCas at hidle ⊢
  split_ifs at hidle ⊢ with hfail hres
  · exact h.setLoop
  · exact absurd rfl hres.1
  · have hzero : s.state = 0 := by
      by_contra hne
      exact hfail (.inr hne)
    have hlaw := h.law
    rw [word_set] at hidle ⊢
    refine ⟨hidle, ?_, h.early, fresh_goto h.fresh nofun⟩
    show s.done + 1 ≤ s.sets + 1 + _
    omega

theorem Inv.resetCas (h : Inv initiallySet s) (hold : oldState = 1) :
    Inv initiallySet (s.resetCas c oldState spurious) := by
  have hidle : Idle (s.resetCas c oldState spurious) := h.idle.resetCas hold
  subst hold
  unfold State.resetCas at hidle ⊢
  split_ifs at hidle ⊢ with hfail
  · exact h.resetLoop
  · have hlaw := h.law
    rw [word_reset] at hidle ⊢
    refine ⟨hidle, ?_, h.early, fresh_goto h.fresh nofun⟩
    show s.done + 0 ≤ s.sets + _
    omega

theorem Inv.next (h : Inv initiallySet s) {a : Act} (hok : Consumes s a)
    (hn : next s a = some t) : Inv initiallySet t := by
  cases a with
  | coAwait c =>
    obtain ⟨-, hn⟩ := Option.ite_none_right_eq_some.mp hn
    exact Option.some.inj hn ▸ h.coAwait hok
  | set c =>
    obtain ⟨-, hn⟩ := Option.ite_none_right_eq_some.mp hn
    exact Option.some.inj hn ▸ h.setLoop
  | reset c =>
    obtain ⟨-, hn⟩ := Option.ite_none_right_eq_some.mp hn
    exact Option.some.inj hn ▸ h.resetLoop
  | step c spurious =>
    obtain ⟨old, hpc, -, rfl⟩ | ⟨old, -, hold, rfl⟩ | ⟨old, -, hold, rfl⟩ := h.idle.step_cases hn
    · exact h.acquire hpc (hok old hpc)
    · exact h.setCas hold
    · exact h.resetCas hold

theorem inv_start : Inv initiallySet (.start initiallySet) where
  idle := idle_of_reachable (.init rfl)
  law := by
    cases initiallySet
    · exact Nat.le_refl 0
    · exact Nat.le_refl 1
  early := rfl
  fresh c oldState h := absurd h nofun

theorem inductive_inv : (system initiallySet).Inductive Consumes (Inv initiallySet) where
  init _ hs := hs ▸ inv_start
  step _ _ _ h hok hn := h.next hok hn

end Counting

/-- One `co_await` completes per `set` in the runs in which every `co_await` finds the event
available and wins it; one that finds it not available completes at once. -/
theorem counted_of_consumes (initiallySet : Bool) (s : State)
    (hs : (system initiallySet).ReachableBy Consumes s) :
    Counted initiallySet s ∧ ∀ c t, ¬ State.available s.state →
      next s (.coAwait c) = some t → ¬ Counted initiallySet t := by
  have hinv := inductive_inv.holds hs
  have hlaw := hinv.law
  refine ⟨⟨by omega, hinv.early⟩, fun c t ha hn h => ?_⟩
  obtain ⟨-, hn⟩ := Option.ite_none_right_eq_some.mp hn
  have ht : t.early = s.early + 1 := by
    rw [← Option.some.inj hn, State.coAwait, if_neg ha]
    simp [State.operation, State.complete, State.goto]
  have hearly := h.early
  omega

/-- A `set`, and a `co_await` that takes it. -/
def setThenAwait : List Act := [.set 0, .step 0 false, .coAwait 1, .step 1 false]

/-- Passes the steps that meet `Consumes`. -/
def consumes (s : State) : Act → Bool
  | .coAwait _ => State.available s.state
  | .step c _ =>
    match s.pc c with
    | .acquire oldState => s.state = oldState
    | _ => true
  | _ => true

theorem consumes_sound (s : State) (a : Act) (h : consumes s a = true) : Consumes s a := by
  cases a with
  | coAwait c => exact of_decide_eq_true (p := State.available s.state) h
  | step c spurious =>
    intro oldState hpc
    simpa [consumes, hpc] using h
  | set t => trivial
  | reset t => trivial

theorem counted_of_consumes_set :
    ∃ s, (system false).ReachableBy Consumes s ∧ s.done = 1 ∧ Counted false s := by
  obtain ⟨s, hs, hdone⟩ := (system false).exists_reachableBy_of_runIf consumes setThenAwait
    (fun s => s.done = 1) consumes_sound rfl (by decide)
  exact ⟨s, hs, of_decide_eq_true hdone, (counted_of_consumes false s hs).1⟩

/-- A `co_await` on an event that was never set completes. -/
theorem exists_not_counted : ∃ s, (system false).Reachable s ∧ ¬ Counted false s := by
  obtain ⟨s, hs, hdone⟩ := (system false).exists_reachable_of_run [.coAwait 1]
    (fun s => s.done = 1 ∧ s.sets = 0) rfl (by decide)
  obtain ⟨hd, hz⟩ := of_decide_eq_true hdone
  refine ⟨s, hs, fun h => ?_⟩
  have hlaw := h.law
  rw [hd, hz] at hlaw
  exact absurd hlaw (by decide)

end Suil.Async.AutoReset
