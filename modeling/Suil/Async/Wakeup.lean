import Suil.Async.Common
import Suil.Lib.Transition
import Mathlib.Algebra.Ring.Nat
import Mathlib.Data.List.Sort
import Mathlib.Logic.Function.Basic

/-! The loop of `Thread::start` and its wakeup: producers in `schedule`, `add`
and `abort` against `epoll_wait`, the queue drain, `handleThreadEvent`,
`fireExpiredTimers` and `computeWaitTimeout`. One step is one atomic operation,
one `_timersLock` section, one queue operation or one read or write of the
eventfd. `_stats` is left out: the loop never reads it. -/
namespace Suil.Async.Wakeup
open Transition

/-- A timer in `_timers`: the address of its item and its deadline. -/
structure Timer where
  item : ℕ
  dd : Int
  deriving DecidableEq

/-- What the caller of `signal()` does afterwards: return, or go on to join the thread. -/
inductive After
  | ret
  | join
  deriving DecidableEq

/-- Where a call of `schedule`, `add` or `abort` stands. -/
inductive ProducerPc
  | returned
  | enqueue (coro : ℕ)
  | insert (timer : Timer)
  | deactivate
  | compareExchange (k : After)
  | write (k : After)
  | clear (k : After)
  | join
  deriving DecidableEq

def After.pc : After → ProducerPc
  | .ret => .returned
  | .join => .join

/-- `add(Event*)` links a timer only when its deadline is positive. -/
inductive Call
  | schedule (coro : ℕ)
  | addEvent (item : ℕ) (dd : Int)
  | addDelay (item : ℕ) (dd : Int)
  | abort

def Call.start : Call → ProducerPc
  | .schedule coro => .enqueue coro
  | .addEvent item dd => if 0 < dd then .insert ⟨item, dd⟩ else .returned
  | .addDelay item dd => .insert ⟨item, dd⟩
  | .abort => .deactivate

/-- An entry of `events`: the eventfd, or the descriptor of an Event whose
`handleEvent` cancels the given timer. -/
inductive Ready
  | evfd
  | event (timer : Option Timer)
  deriving DecidableEq

inductive LoopPc
  | test
  | compute
  | epollWait (timeout : Int)
  | woken (ready : List Ready)
  | drainTest (ready : List Ready)
  | drain (ready : List Ready)
  | eventTest (ready : List Ready)
  | event (r : Ready) (rest : List Ready)
  | expireTest
  | expire (tp : Int)
  | exited
  deriving DecidableEq

/-- `computed` is a ghost: `_timers` as `computeWaitTimeout` last saw it. -/
structure State where
  scheduleQ : List ℕ
  active : Bool
  signaling : Bool
  evfd : ℕ
  timers : List Timer
  computed : List Timer
  loop : LoopPc
  producers : ℕ → ProducerPc

/-- `Thread::start` has just stored `_active = true`. -/
def State.start : State where
  scheduleQ := []
  active := true
  signaling := false
  evfd := 0
  timers := []
  computed := []
  loop := .test
  producers := fun _ => .returned

def State.goto (s : State) (p : ℕ) (pc : ProducerPc) : State :=
  { s with producers := Function.update s.producers p pc }

/-- The loop of `addTimer`: the timer goes before the first one with a later deadline. -/
def addTimer (timer : Timer) (timers : List Timer) : List Timer :=
  timers.orderedInsert (fun a b => a.dd < b.dd) timer

def computeWaitTimeout (timers : List Timer) (now : Int) : Int :=
  waitTimeout (timers.head?.map (·.dd)) now

def runProducer (s : State) (p : ℕ) : Option State :=
  match s.producers p with
  | .returned => none
  | .enqueue coro =>
    some { s.goto p (.compareExchange .ret) with scheduleQ := s.scheduleQ ++ [coro] }
  | .insert timer =>
    some { s.goto p (.compareExchange .ret) with timers := addTimer timer s.timers }
  | .deactivate => some { s.goto p (.compareExchange .join) with active := false }
  | .compareExchange k =>
    if s.signaling then some (s.goto p k.pc)
    else some { s.goto p (.write k) with signaling := true }
  | .write k => some { s.goto p (.clear k) with evfd := s.evfd + 1 }
  | .clear k => some { s.goto p k.pc with signaling := false }
  | .join => if s.loop = .exited then some (s.goto p .returned) else none

/-- The next step of the loop thread, with the reading of `fastnow()` it may need. -/
def runLoop (s : State) (now : Int) : Option State :=
  match s.loop with
  | .test => some { s with loop := if s.active then .compute else .exited }
  | .compute =>
    some { s with loop := .epollWait (computeWaitTimeout s.timers now), computed := s.timers }
  | .epollWait _ => none
  | .woken ready => some { s with loop := if s.active then .drainTest ready else .exited }
  | .drainTest ready => some { s with loop := if s.active then .drain ready else .eventTest ready }
  | .drain ready =>
    match s.scheduleQ with
    | [] => some { s with loop := .eventTest ready }
    | _ :: q => some { s with loop := .drainTest ready, scheduleQ := q }
  | .eventTest [] => some { s with loop := .expireTest }
  | .eventTest (r :: rest) =>
    some { s with loop := if s.active then .event r rest else .expireTest }
  | .event .evfd rest =>
    if s.evfd = 0 then none else some { s with loop := .eventTest rest, evfd := 0 }
  | .event (.event none) rest => some { s with loop := .eventTest rest }
  | .event (.event (some tm)) rest =>
    some { s with loop := .eventTest rest, timers := s.timers.erase tm }
  | .expireTest => some { s with loop := if s.active then .expire now else .test }
  | .expire tp =>
    match s.timers with
    | [] => some { s with loop := .test }
    | it :: rest =>
      if tp < it.dd then some { s with loop := .test } else some { s with timers := rest }
  | .exited => none

/-- `epoll_wait` returns: ready descriptors, a timeout or `EINTR` (no descriptor).
The eventfd is level triggered. -/
def wake (s : State) (ready : List Ready) : Option State :=
  match s.loop with
  | .epollWait _ =>
    if (.evfd ∈ ready → s.evfd ≠ 0) ∧ ready.count .evfd ≤ 1 ∧ ready.length ≤ 256 then
      some { s with loop := .woken ready }
    else none
  | _ => none

inductive Act
  | call (p : ℕ) (c : Call)
  | run (p : ℕ)
  | spurious (p : ℕ)
  | wake (ready : List Ready)
  | loop (now : Int)

/-- `spurious` is a failure of `compare_exchange_weak` that the old value does not explain. -/
def next (s : State) : Act → Option State
  | .call p c => if s.producers p = .returned then some (s.goto p c.start) else none
  | .run p => runProducer s p
  | .spurious p =>
    match s.producers p with
    | .compareExchange k => some (s.goto p k.pc)
    | _ => none
  | .wake ready => wake s ready
  | .loop now => runLoop s now

def system : System State Act where
  init s := s = State.start
  next := next

/-- In every state where the loop is blocked, the counter is 0 and the producers
have all returned, the blocked wait misses nothing. -/
def NoLostWakeup (s : State) : Prop :=
  (∃ timeout, s.loop = .epollWait timeout) → s.evfd = 0 → (∀ p, s.producers p = .returned) →
    s.scheduleQ = [] ∧ s.active = true ∧ ∀ tm, s.timers.head? = some tm → tm ∈ s.computed

/-- The call has yet to come past the `compare_exchange_weak` and the `write` of `signal()`. -/
def ProducerPc.signalAhead : ProducerPc → Bool
  | .returned | .clear _ | .join => false
  | _ => true

def SignalAhead (s : State) (p : ℕ) : Prop := (s.producers p).signalAhead = true

/-- Something published that the loop, from where it stands, does not look at
again before its next `epoll_wait` returns. -/
def Unseen (s : State) : Prop :=
  match s.loop with
  | .epollWait _ => s.scheduleQ ≠ [] ∨ s.active = false ∨ ∃ tm ∈ s.timers, tm ∉ s.computed
  | .compute => s.scheduleQ ≠ [] ∨ s.active = false
  | .eventTest _ | .event _ _ | .expireTest | .expire _ | .test =>
    s.active = true ∧ s.scheduleQ ≠ []
  | _ => False

/-- While something is unseen, no read of the eventfd takes the last write and no
failing compare-exchange drops the last signal. -/
def SignalKept (s : State) : Act → Prop
  | .run p => s.signaling = true → (∃ k, s.producers p = .compareExchange k) → Unseen s →
      0 < s.evfd ∨ ∃ q, q ≠ p ∧ SignalAhead s q
  | .spurious p => Unseen s → 0 < s.evfd ∨ ∃ q, q ≠ p ∧ SignalAhead s q
  | .loop _ => (∃ rest, s.loop = .event .evfd rest) → Unseen s → ∃ p, SignalAhead s p
  | _ => True

/-- What is unseen has a wakeup on its way. -/
def WakeupDue (s : State) : Prop := Unseen s → 0 < s.evfd ∨ ∃ p, SignalAhead s p

@[simp] theorem goto_producers (s : State) (p q : ℕ) (pc : ProducerPc) :
    (s.goto p pc).producers q = if q = p then pc else s.producers q := by
  simp [State.goto, Function.update_apply]

theorem signalAhead_self {s t : State} {p : ℕ} {pc : ProducerPc}
    (ht : t.producers = (s.goto p pc).producers) (h : pc.signalAhead = true) :
    ∃ q, SignalAhead t q := ⟨p, by simpa [SignalAhead, ht] using h⟩

/-- A producer step that leaves no signal ahead of its own keeps those of the others. -/
theorem signalAhead_others {s t : State} {p : ℕ} {pc : ProducerPc}
    (ht : t.producers = (s.goto p pc).producers)
    (h : ∃ q, q ≠ p ∧ SignalAhead s q) : ∃ q, SignalAhead t q := by
  obtain ⟨q, hq, ha⟩ := h
  exact ⟨q, by simpa [SignalAhead, ht, hq] using ha⟩

theorem wakeupDue_call {s : State} {p : ℕ} {c : Call} (hs : WakeupDue s)
    (hp : s.producers p = .returned) : WakeupDue (s.goto p c.start) := by
  intro hu
  refine (hs hu).imp_right fun ⟨q, hq⟩ => signalAhead_others rfl ⟨q, ?_, hq⟩
  rintro rfl
  simp [SignalAhead, hp, ProducerPc.signalAhead] at hq

/-- A failed compare-exchange leaves the call with no signal ahead. -/
theorem wakeupDue_dropped {s : State} {p : ℕ} {k : After}
    (hk : Unseen s → 0 < s.evfd ∨ ∃ q, q ≠ p ∧ SignalAhead s q) :
    WakeupDue (s.goto p k.pc) := fun hu => (hk hu).imp_right (signalAhead_others rfl)

theorem wakeupDue_producer {s t : State} {p : ℕ} (hs : WakeupDue s)
    (hok : SignalKept s (.run p)) (ht : runProducer s p = some t) : WakeupDue t := by
  unfold runProducer at ht
  split at ht
  case h_1 => cases ht
  case h_2 | h_3 | h_4 =>
    cases ht
    exact fun _ => .inr (signalAhead_self rfl rfl)
  case h_5 k hp =>
    split_ifs at ht with hsig
    · cases ht
      exact wakeupDue_dropped (hok hsig ⟨k, hp⟩)
    · cases ht
      exact fun _ => .inr (signalAhead_self rfl rfl)
  case h_6 =>
    cases ht
    exact fun _ => .inl (Nat.succ_pos _)
  case h_7 k hp =>
    cases ht
    intro hu
    refine (hs hu).imp_right fun ⟨q, hq⟩ => signalAhead_others rfl ⟨q, ?_, hq⟩
    rintro rfl
    simp [SignalAhead, hp, ProducerPc.signalAhead] at hq
  case h_8 hp =>
    split_ifs at ht with hx
    cases ht
    intro hu
    simp [Unseen, State.goto, hx] at hu

/-- Looking at the queue, the flag or the timers only leaves less unseen. -/
theorem wakeupDue_of_unseen {s t : State} (hs : WakeupDue s) (he : t.evfd = s.evfd)
    (hp : t.producers = s.producers) (hu : Unseen t → Unseen s) : WakeupDue t := by
  intro ht
  simpa only [SignalAhead, he, hp] using hs (hu ht)

theorem wakeupDue_loop {s t : State} {now : Int} (hs : WakeupDue s)
    (hok : SignalKept s (.loop now)) (ht : runLoop s now = some t) : WakeupDue t := by
  unfold runLoop at ht
  split at ht
  case h_1 hl =>
    cases ht
    refine wakeupDue_of_unseen hs rfl rfl fun hu => ?_
    cases ha : s.active <;> simp_all [Unseen]
  case h_2 hl =>
    cases ht
    refine wakeupDue_of_unseen hs rfl rfl fun hu => ?_
    simpa [Unseen, hl, fun tm (h : tm ∈ s.timers) => h] using hu
  case h_3 => cases ht
  case h_4 hl =>
    cases ht
    refine wakeupDue_of_unseen hs rfl rfl fun hu => ?_
    cases ha : s.active <;> simp [Unseen, ha] at hu
  case h_5 hl =>
    cases ht
    refine wakeupDue_of_unseen hs rfl rfl fun hu => ?_
    cases ha : s.active <;> simp [Unseen, ha] at hu
  case h_6 hl =>
    split at ht
    case h_1 hq =>
      cases ht
      exact wakeupDue_of_unseen hs rfl rfl fun hu => by simp [Unseen, hq] at hu
    case h_2 =>
      cases ht
      exact wakeupDue_of_unseen hs rfl rfl fun hu => by simp [Unseen] at hu
  case h_7 hl =>
    cases ht
    exact wakeupDue_of_unseen hs rfl rfl fun hu => by simpa [Unseen, hl] using hu
  case h_8 hl =>
    cases ht
    refine wakeupDue_of_unseen hs rfl rfl fun hu => ?_
    cases ha : s.active <;> simp_all [Unseen]
  case h_9 rest hl =>
    split_ifs at ht
    cases ht
    intro hu
    exact .inr (hok ⟨rest, hl⟩ (by simpa [Unseen, hl] using hu))
  case h_10 hl =>
    cases ht
    exact wakeupDue_of_unseen hs rfl rfl fun hu => by simpa [Unseen, hl] using hu
  case h_11 hl =>
    cases ht
    exact wakeupDue_of_unseen hs rfl rfl fun hu => by simpa [Unseen, hl] using hu
  case h_12 hl =>
    cases ht
    refine wakeupDue_of_unseen hs rfl rfl fun hu => ?_
    cases ha : s.active <;> simp_all [Unseen]
  case h_13 hl =>
    split at ht
    case h_1 =>
      cases ht
      exact wakeupDue_of_unseen hs rfl rfl fun hu => by simpa [Unseen, hl] using hu
    case h_2 =>
      split_ifs at ht <;> cases ht <;>
        exact wakeupDue_of_unseen hs rfl rfl fun hu => by simpa [Unseen, hl] using hu
  case h_14 => cases ht

theorem spurious_cases {s t : State} {p : ℕ} (h : next s (.spurious p) = some t) :
    ∃ k, s.producers p = .compareExchange k ∧ t = s.goto p k.pc := by
  simp only [next] at h
  split at h
  · next k hp => exact ⟨k, hp, (Option.some.inj h).symm⟩
  · cases h

theorem wakeupDue_next {s t : State} {a : Act} (hs : WakeupDue s) (hok : SignalKept s a)
    (ht : next s a = some t) : WakeupDue t := by
  cases a with
  | call p c =>
    simp only [next] at ht
    split_ifs at ht with hp
    cases ht
    exact wakeupDue_call hs hp
  | run p => exact wakeupDue_producer hs hok ht
  | spurious p =>
    obtain ⟨k, -, rfl⟩ := spurious_cases ht
    exact wakeupDue_dropped hok
  | wake ready =>
    simp only [next, wake] at ht
    split at ht
    · split_ifs at ht
      cases ht
      exact wakeupDue_of_unseen hs rfl rfl fun hu => by simp [Unseen] at hu
    · cases ht
  | loop now => exact wakeupDue_loop hs hok ht

theorem wakeupDue_inductive : system.Inductive SignalKept WakeupDue where
  init := by
    rintro s rfl hu
    simp [Unseen, State.start] at hu
  step _ _ _ := wakeupDue_next

/-- No wait of the loop misses anything, calls of `abort` that wait in `join` included. -/
theorem nothing_missed {s : State} (hs : system.ReachableBy SignalKept s) :
    (∃ timeout, s.loop = .epollWait timeout) → s.evfd = 0 →
      (∀ p, s.producers p = .returned ∨ s.producers p = .join) →
      s.scheduleQ = [] ∧ s.active = true ∧ ∀ tm ∈ s.timers, tm ∈ s.computed := by
  rintro ⟨timeout, hl⟩ he hp
  have hseen : ¬ Unseen s := by
    intro hu
    rcases wakeupDue_inductive.holds hs hu with h | ⟨q, hq⟩
    · omega
    · rcases hp q with h | h <;> simp [SignalAhead, h, ProducerPc.signalAhead] at hq
  simp only [Unseen, hl, not_or, not_exists, not_and, not_not] at hseen
  exact ⟨hseen.1, by simpa using hseen.2.1, fun tm htm => hseen.2.2 tm htm⟩

/-- In a run whose steps keep a signal for what is unseen no wakeup is lost. -/
theorem no_lost_wakeup {s : State} (hs : system.ReachableBy SignalKept s) : NoLostWakeup s := by
  intro hl he hp
  obtain ⟨hq, ha, ht⟩ := nothing_missed hs hl he fun p => .inl (hp p)
  exact ⟨hq, ha, fun tm htm => ht tm (List.mem_of_mem_head? htm)⟩

/-- `schedule(10)` wakes the loop, which drains the queue, reads the eventfd and waits. -/
def scheduledOnce : List Act :=
  [.loop 0, .loop 0, .call 0 (.schedule 10), .run 0, .run 0, .run 0, .run 0,
    .wake [.evfd], .loop 0, .loop 0, .loop 0, .loop 0, .loop 0, .loop 0, .loop 0, .loop 0,
    .loop 0, .loop 0, .loop 0, .loop 0]

/-- A test that is enough for `SignalKept`. -/
def keepsSignal (s : State) : Act → Bool
  | .run p => match s.producers p with
    | .compareExchange _ => !s.signaling
    | _ => true
  | .spurious _ => false
  | .loop _ => match s.loop with
    | .event .evfd _ => s.scheduleQ = []
    | _ => true
  | _ => true

theorem signalKept_of_keepsSignal (s : State) (a : Act) (h : keepsSignal s a = true) :
    SignalKept s a := by
  cases a with
  | run p =>
    rintro hsig ⟨k, hk⟩
    simp [keepsSignal, hk, hsig] at h
  | loop now =>
    rintro ⟨rest, hl⟩ hu
    simp only [keepsSignal, hl, decide_eq_true_eq] at h
    simp [Unseen, hl, h] at hu
  | spurious p => simp [keepsSignal] at h
  | call | wake => trivial

theorem no_lost_wakeup_scheduledOnce : ∃ s, system.ReachableBy SignalKept s ∧
    s.loop = .epollWait (-1) ∧ s.evfd = 0 ∧ NoLostWakeup s := by
  obtain ⟨s, hs, hw⟩ := system.exists_reachableBy_of_runIf keepsSignal scheduledOnce
    (fun s => s.loop = .epollWait (-1) && s.evfd = 0) signalKept_of_keepsSignal rfl (by decide)
  simp only [Bool.and_eq_true, decide_eq_true_eq] at hw
  exact ⟨s, hs, hw.1, hw.2, no_lost_wakeup hs⟩

/-- `schedule(10)` wakes the loop; `schedule(11)` comes between the drain and
the read of the eventfd, which takes its write as well. -/
def drainedThenRead : List Act :=
  [.loop 0, .loop 0, .call 0 (.schedule 10), .run 0, .run 0, .run 0, .run 0,
    .wake [.evfd], .loop 0, .loop 0, .loop 0, .loop 0, .loop 0,
    .call 1 (.schedule 11), .run 1, .run 1, .run 1, .run 1,
    .loop 0, .loop 0, .loop 0, .loop 0, .loop 0, .loop 0, .loop 0]

theorem lost_wakeup : ¬ ∀ s, system.Reachable s → NoLostWakeup s := by
  intro h
  have hr : ∃ t, system.run State.start drainedThenRead = some t ∧
      t.loop = .epollWait (-1) ∧ t.evfd = 0 ∧ t.scheduleQ = [11] ∧
      ∀ p, t.producers p = .returned := by
    refine ⟨_, rfl, rfl, rfl, rfl, ?_⟩
    intro p
    by_cases h0 : p = 0 <;> by_cases h1 : p = 1 <;> simp [h0, h1, State.goto, State.start, After.pc]
  obtain ⟨t, ht, hl, he, hq, hp⟩ := hr
  have := h t (System.run_reachable (.init rfl) ht) ⟨_, hl⟩ he hp
  simp [hq] at this

end Suil.Async.Wakeup
