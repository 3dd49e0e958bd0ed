import Suil.Lib.Progress
import Mathlib.Data.Nat.Notation
import Mathlib.Order.Nat

/-! `syncWait`: the wrapper coroutine, its promise and the futex event. The thread that calls
and the coroutine take turns; a coroutine that is still at it when `start` returns goes on
elsewhere. -/
namespace Suil.Async.SyncWait
open Transition

/-- An awaitable with a void result or with one of type `V`, and what it completes with. -/
inductive Awaitable (V E : Type*)
  | void (completion : Except E Unit)
  | nonVoid (completion : Except E V)

/-- What a caller gets; `undefined` if a function that has a result runs off its end. -/
inductive Outcome (V E : Type*)
  | void
  | value (v : V)
  | exception (e : E)
  | undefined
  deriving DecidableEq

variable {V E : Type*}

/-- `sync_wait_task_promise`; the `void` one does without `_result`. -/
structure Promise (V E : Type*) where
  result : Option V
  exception : Option E

namespace Promise

def start : Promise V E := ⟨none, none⟩

def yield_value (p : Promise V E) (v : V) : Promise V E := { p with result := some v }

def return_void (p : Promise V E) : Promise V E := p

def unhandled_exception (p : Promise V E) (e : E) : Promise V E := { p with exception := some e }

end Promise

namespace Awaitable

def isVoid : Awaitable V E → Bool
  | void _ => true
  | nonVoid _ => false

/-- `result()` of the promise. -/
def result (aw : Awaitable V E) (p : Promise V E) : Outcome V E :=
  match p.exception with
  | some e => .exception e
  | none =>
    if aw.isVoid then .void
    else
      match p.result with
      | some v => .value v
      | none => .undefined

/-- The body of `make_sync_wait_task`, once the awaitable has completed. -/
def body (p : Promise V E) : Awaitable V E → Promise V E
  | void (.ok _) => p.return_void
  | nonVoid (.ok v) => p.yield_value v
  | void (.error e) => p.unhandled_exception e
  | nonVoid (.error e) => p.unhandled_exception e

/-- What the awaitable completes with. -/
def outcome : Awaitable V E → Outcome V E
  | void (.ok _) => .void
  | nonVoid (.ok v) => .value v
  | void (.error e) => .exception e
  | nonVoid (.error e) => .exception e

/-- The end of `syncWait`, which has no `return`. -/
def flowOff (aw : Awaitable V E) : Outcome V E := if aw.isVoid then .void else .undefined

end Awaitable

/-- The coroutine: `store` and `wake` are the two halves of `set`, which `final_suspend` calls. -/
inductive Coro
  | initial
  | awaiting
  | store
  | wake
  | final
  deriving DecidableEq

/-- The calling thread: in `start`, in `wait` before a load or a call of `futex`, or asleep. -/
inductive Pc
  | begin
  | start
  | load
  | futex (oldValue : ℕ)
  | asleep
  | ended
  deriving DecidableEq

/-- `sync` says that the calling thread runs the coroutine to its end. -/
structure State (V E : Type*) where
  value : ℕ
  promise : Promise V E
  coro : Coro
  pc : Pc
  sync : Bool
  returned : Option (Outcome V E)

def State.init : State V E := ⟨0, .start, .initial, .begin, false, none⟩

/-- The return of `wait`, and of `syncWait`. -/
def State.finish (aw : Awaitable V E) (s : State V E) : State V E :=
  { s with pc := .ended, returned := some aw.flowOff }

inductive Act
  | start (sync : Bool)
  | complete
  | store
  | wake
  | startReturns
  | load
  | futex (transient : Bool)
  | spurious

/-- The call of `futex` in `wait`: another error than `EAGAIN` is taken to be transient. -/
def State.futex (aw : Awaitable V E) (s : State V E) (oldValue : ℕ) (transient : Bool) :
    State V E :=
  if transient then { s with pc := .load }
  else if s.value ≠ oldValue then s.finish aw
  else { s with pc := .asleep }

def next (aw : Awaitable V E) (s : State V E) : Act → Option (State V E)
  | .start sync =>
    if s.pc = .begin then some { s with pc := .start, coro := .awaiting, sync } else none
  | .complete =>
    if s.coro = .awaiting then some { s with promise := aw.body s.promise, coro := .store } else none
  | .store => if s.coro = .store then some { s with value := 1, coro := .wake } else none
  | .wake =>
    if s.coro = .wake then
      some { s with coro := .final, pc := if s.pc = .asleep then .load else s.pc }
    else none
  | .startReturns =>
    if s.pc = .start ∧ (s.sync → s.coro = .final) then some { s with pc := .load } else none
  | .load =>
    if s.pc = .load then some (if s.value = 0 then { s with pc := .futex s.value } else s.finish aw)
    else none
  | .futex transient =>
    match s.pc with
    | .futex oldValue => some (s.futex aw oldValue transient)
    | _ => none
  | .spurious => if s.pc = .asleep then some { s with pc := .load } else none

def system (aw : Awaitable V E) : System (State V E) Act := ⟨fun s => s = .init, next aw⟩

/-- The steps, each with what it waits for. -/
inductive Step (aw : Awaitable V E) (s : State V E) : Act → State V E → Prop
  | start {sync : Bool} (hpc : s.pc = .begin) :
      Step aw s (.start sync) { s with pc := .start, coro := .awaiting, sync }
  | complete (hcoro : s.coro = .awaiting) :
      Step aw s .complete { s with promise := aw.body s.promise, coro := .store }
  | store (hcoro : s.coro = .store) : Step aw s .store { s with value := 1, coro := .wake }
  | wake (hcoro : s.coro = .wake) : Step aw s .wake
      { s with coro := .final, pc := if s.pc = .asleep then .load else s.pc }
  | startReturns (hpc : s.pc = .start) : Step aw s .startReturns { s with pc := .load }
  | unset (hpc : s.pc = .load) (hvalue : s.value = 0) :
      Step aw s .load { s with pc := .futex s.value }
  | set (hpc : s.pc = .load) (hvalue : s.value ≠ 0) : Step aw s .load (s.finish aw)
  | futex {oldValue : ℕ} {transient : Bool} (hpc : s.pc = .futex oldValue) :
      Step aw s (.futex transient) (s.futex aw oldValue transient)
  | spurious (hpc : s.pc = .asleep) : Step aw s .spurious { s with pc := .load }

theorem step_of_next {aw : Awaitable V E} {s t : State V E} {a : Act} (hn : next aw s a = some t) :
    Step aw s a t := by
  unfold next at hn
  cases a with
  | futex transient =>
    cases hpc : s.pc with
    | futex oldValue =>
      simp only [hpc, Option.some.injEq] at hn
      exact hn ▸ .futex hpc
    | _ => simp only [hpc] at hn; cases hn
  | load =>
    simp only [Option.ite_none_right_eq_some, Option.some.injEq] at hn
    obtain ⟨hpc, rfl⟩ := hn
    split_ifs with hvalue
    · exact .unset hpc hvalue
    · exact .set hpc hvalue
  | start sync =>
    obtain ⟨hpc, rfl⟩ := Option.ite_none_right_eq_some.mp hn |>.imp_right Option.some.inj
    exact .start hpc
  | complete =>
    obtain ⟨hcoro, rfl⟩ := Option.ite_none_right_eq_some.mp hn |>.imp_right Option.some.inj
    exact .complete hcoro
  | store =>
    obtain ⟨hcoro, rfl⟩ := Option.ite_none_right_eq_some.mp hn |>.imp_right Option.some.inj
    exact .store hcoro
  | wake =>
    obtain ⟨hcoro, rfl⟩ := Option.ite_none_right_eq_some.mp hn |>.imp_right Option.some.inj
    exact .wake hcoro
  | startReturns =>
    obtain ⟨hpc, rfl⟩ := Option.ite_none_right_eq_some.mp hn |>.imp_right Option.some.inj
    exact .startReturns hpc.1
  | spurious =>
    obtain ⟨hpc, rfl⟩ := Option.ite_none_right_eq_some.mp hn |>.imp_right Option.some.inj
    exact .spurious hpc

/-- The awaitable has completed. -/
def Coro.Completed (c : Coro) : Prop := c = .store ∨ c = .wake ∨ c = .final

/-- `syncWait` returns only after the awaitable has completed, with its outcome, and does return
once it is notified. -/
def HandsOver (aw : Awaitable V E) : Prop :=
  ∀ s, (system aw).Reachable s →
    (∀ r, s.returned = some r → s.coro.Completed ∧ r = aw.outcome) ∧
      (s.coro = .final → ∃ t, (system aw).Leads s t ∧ t.returned.isSome)

/-- The event is set by the store alone, and nobody sleeps after the wake. -/
structure Inv (aw : Awaitable V E) (s : State V E) : Prop where
  unset : s.coro = .initial ∨ s.coro = .awaiting ∨ s.coro = .store → s.value = 0
  set : s.coro = .wake ∨ s.coro = .final → s.value = 1
  begin : s.pc = .begin → s.coro = .initial
  promise : s.promise = if s.coro = .initial ∨ s.coro = .awaiting then .start else aw.body .start
  awake : s.pc = .asleep → s.coro ≠ .final
  oldValue : ∀ old, s.pc = .futex old → old = 0
  returned : s.returned = if s.pc = .ended then some aw.flowOff else none
  ended : s.pc = .ended → s.value = 1

section Invariant
variable {aw : Awaitable V E} {s t : State V E}

theorem inv_init : Inv aw .init where
  unset _ := rfl
  set h := by rcases h with h | h <;> cases h
  begin _ := rfl
  promise := rfl
  awake h := by cases h
  oldValue old h := by cases h
  returned := rfl
  ended h := by cases h

theorem Inv.notified (h : Inv aw s) (hvalue : s.value ≠ 0) : s.coro = .wake ∨ s.coro = .final := by
  have hunset := mt h.unset hvalue
  cases hcoro : s.coro with
  | initial => exact absurd (.inl hcoro) hunset
  | awaiting => exact absurd (.inr (.inl hcoro)) hunset
  | store => exact absurd (.inr (.inr hcoro)) hunset
  | wake => exact .inl rfl
  | final => exact .inr rfl

/-- The calling thread moves on in `start` or `wait`. -/
theorem Inv.move (h : Inv aw s) {pc : Pc} (hs : s.pc ≠ .ended) (hbegin : pc ≠ .begin)
    (hended : pc ≠ .ended) (hawake : pc = .asleep → s.coro ≠ .final)
    (hold : ∀ old, pc = .futex old → old = 0) : Inv aw { s with pc } where
  unset := h.unset
  set := h.set
  begin hpc := absurd hpc hbegin
  promise := h.promise
  awake := hawake
  oldValue := hold
  returned := by
    have hreturned := h.returned
    rw [if_neg hs] at hreturned
    rw [if_neg hended]
    exact hreturned
  ended hpc := absurd hpc hended

theorem Inv.load (h : Inv aw s) (hs : s.pc ≠ .ended) : Inv aw { s with pc := .load } :=
  h.move hs (by decide) (by decide) (fun hpc => by cases hpc) fun old hpc => by cases hpc

theorem Inv.finish (h : Inv aw s) (hvalue : s.value ≠ 0) : Inv aw (s.finish aw) where
  unset := h.unset
  set := h.set
  begin hpc := by cases hpc
  promise := h.promise
  awake hpc := by cases hpc
  oldValue old hpc := by cases hpc
  returned := rfl
  ended _ := h.set (h.notified hvalue)

theorem Inv.futex (h : Inv aw s) {oldValue : ℕ} (hpc : s.pc = .futex oldValue) (transient : Bool) :
    Inv aw (s.futex aw oldValue transient) := by
  have hold := h.oldValue oldValue hpc
  have hs : s.pc ≠ .ended := by rw [hpc]; exact Pc.noConfusion
  unfold State.futex
  split_ifs with htransient hvalue
  · exact h.load hs
  · rw [hold] at hvalue
    exact h.finish hvalue
  · have hzero : s.value = 0 := (not_not.mp hvalue).trans hold
    refine h.move hs (by decide) (by decide) (fun _ hfinal => ?_) fun old hpc => by cases hpc
    have hone := h.set (.inr hfinal)
    omega

/-- The coroutine moves on, once it was started. -/
theorem Inv.advance (h : Inv aw s) {value : ℕ} {promise : Promise V E} {coro : Coro}
    (hstarted : s.coro ≠ .initial)
    (hunset : coro = .initial ∨ coro = .awaiting ∨ coro = .store → value = 0)
    (hset : coro = .wake ∨ coro = .final → value = 1)
    (hpromise : promise = if coro = .initial ∨ coro = .awaiting then .start else aw.body .start)
    (hawake : s.pc = .asleep → coro ≠ .final) (hended : s.pc = .ended → value = 1) :
    Inv aw { s with value, promise, coro } where
  unset := hunset
  set := hset
  begin hpc := absurd (h.begin hpc) hstarted
  promise := hpromise
  awake := hawake
  oldValue := h.oldValue
  returned := h.returned
  ended := hended

theorem Inv.start (h : Inv aw s) (hpc : s.pc = .begin) (sync : Bool) :
    Inv aw { s with pc := .start, coro := .awaiting, sync } where
  unset _ := h.unset (.inl (h.begin hpc))
  set hc := by rcases hc with hc | hc <;> cases hc
  begin hc := by cases hc
  promise := by
    have hpromise := h.promise
    rw [h.begin hpc] at hpromise
    exact hpromise
  awake hc := by cases hc
  oldValue old hc := by cases hc
  returned := by
    have hreturned := h.returned
    rw [hpc] at hreturned
    exact hreturned
  ended hc := by cases hc

theorem Inv.complete (h : Inv aw s) (hcoro : s.coro = .awaiting) :
    Inv aw { s with promise := aw.body s.promise, coro := .store } := by
  have hpromise := h.promise
  rw [hcoro, if_pos (.inr rfl)] at hpromise
  exact h.advance (by rw [hcoro]; decide) (fun _ => h.unset (.inr (.inl hcoro)))
    (fun hc => by rcases hc with hc | hc <;> cases hc) (congrArg aw.body hpromise)
    (fun _ hc => by cases hc) h.ended

theorem Inv.store (h : Inv aw s) (hcoro : s.coro = .store) :
    Inv aw { s with value := 1, coro := .wake } := by
  have hpromise := h.promise
  rw [hcoro] at hpromise
  exact h.advance (by rw [hcoro]; decide) (fun hc => by rcases hc with hc | hc | hc <;> cases hc)
    (fun _ => rfl) hpromise (fun _ hc => by cases hc) fun _ => rfl

/-- The thread is woken, or is not asleep. -/
theorem Inv.wake (h : Inv aw s) (hcoro : s.coro = .wake) : Inv aw
    { s with coro := .final, pc := if s.pc = .asleep then .load else s.pc } := by
  have hadvance : ∀ {r : State V E}, Inv aw r → r.coro = .wake → r.pc ≠ .asleep →
      Inv aw { r with coro := .final } := by
    intro r hr hwake hpc
    have hpromise := hr.promise
    rw [hwake] at hpromise
    exact hr.advance (by rw [hwake]; decide) (fun hc => by rcases hc with hc | hc | hc <;> cases hc)
      (fun _ => hr.set (.inl hwake)) hpromise (fun hc => absurd hc hpc) hr.ended
  by_cases hpc : s.pc = .asleep
  · rw [if_pos hpc]
    exact hadvance (h.load (by rw [hpc]; decide)) hcoro Pc.noConfusion
  · rw [if_neg hpc]
    exact hadvance h hcoro hpc

theorem inv_step {a : Act} (h : Inv aw s) (hs : Step aw s a t) : Inv aw t := by
  cases hs with
  | start hpc => exact h.start hpc _
  | complete hcoro => exact h.complete hcoro
  | store hcoro => exact h.store hcoro
  | wake hcoro => exact h.wake hcoro
  | startReturns hpc => exact h.load (by rw [hpc]; decide)
  | unset hpc hvalue =>
    exact h.move (by rw [hpc]; decide) Pc.noConfusion Pc.noConfusion (fun hc => by cases hc)
      fun old hc => by cases hc; exact hvalue
  | set hpc hvalue => exact h.finish hvalue
  | futex hpc => exact h.futex hpc _
  | spurious hpc => exact h.load (by rw [hpc]; decide)

theorem inv_inductive (aw : Awaitable V E) : (system aw).Inductive (fun _ _ => True) (Inv aw) where
  init _ hs := hs ▸ inv_init
  step _ _ _ h _ hn := inv_step h (step_of_next hn)

theorem inv_of_reachable (hs : (system aw).Reachable s) : Inv aw s := (inv_inductive aw).holds hs

/-- `syncWait` does not return before the outcome is in the promise. -/
theorem completed_of_returned (hs : (system aw).Reachable s) {r : Outcome V E}
    (hr : s.returned = some r) :
    s.coro.Completed ∧ r = aw.flowOff ∧ aw.result s.promise = aw.outcome := by
  have h := inv_of_reachable hs
  have hreturned := h.returned
  rw [hr] at hreturned
  by_cases hpc : s.pc = .ended
  · rw [if_pos hpc] at hreturned
    have hvalue : s.value ≠ 0 := by
      rw [h.ended hpc]
      decide
    have hcoro := h.notified hvalue
    have hpromise := h.promise
    rw [if_neg (by rcases hcoro with hc | hc <;> rw [hc] <;> decide)] at hpromise
    refine ⟨.inr hcoro, Option.some.inj hreturned, ?_⟩
    rw [hpromise]
    rcases aw with (e | u) | (e | v) <;> rfl
  · rw [if_neg hpc] at hreturned
    cases hreturned

end Invariant

section Notified
variable (aw : Awaitable V E)

/-- How far the calling thread is from its return. -/
def Pc.rank : Pc → ℕ
  | .ended => 0
  | .load => 1
  | .futex _ => 2
  | .start => 3
  | .asleep => 4
  | .begin => 4

/-- Once the coroutine has notified, the calling thread is short of its return by so much. -/
def Short (b : ℕ) (s : State V E) : Prop :=
  (system aw).Reachable s ∧ s.coro = .final ∧ s.pc ≠ .ended ∧ s.pc.rank = b

def Returned (s : State V E) : Prop := s.returned.isSome

variable {aw} {s t : State V E}

theorem returned_of_ended (hs : (system aw).Reachable s) (hpc : s.pc = .ended) : Returned s := by
  have hreturned := (inv_of_reachable hs).returned
  rw [if_pos hpc] at hreturned
  unfold Returned
  rw [hreturned]
  rfl

/-- After the notification the thread has a step to take, and each of its steps takes it closer. -/
theorem short_step {b : ℕ} {a : Act} (h : Short aw b s) (hstep : Step aw s a t) :
    t.coro = .final ∧ t.pc.rank < b := by
  obtain ⟨hs, hfinal, -, rfl⟩ := h
  have hinv := inv_of_reachable hs
  have hvalue : s.value ≠ 0 := by
    rw [hinv.set (.inr hfinal)]
    decide
  cases hstep with
  | start hpc => cases hfinal.symm.trans (hinv.begin hpc)
  | complete hcoro => cases hfinal.symm.trans hcoro
  | store hcoro => cases hfinal.symm.trans hcoro
  | wake hcoro => cases hfinal.symm.trans hcoro
  | startReturns hpc =>
    rw [hpc]
    exact ⟨hfinal, (by decide : 1 < 3)⟩
  | unset hpc hzero => exact absurd hzero hvalue
  | set hpc =>
    rw [hpc]
    exact ⟨hfinal, Nat.zero_lt_one⟩
  | @futex oldValue transient hpc =>
    have hchanged : s.value ≠ oldValue := by
      rw [hinv.oldValue oldValue hpc]
      exact hvalue
    unfold State.futex
    rw [if_pos hchanged, hpc]
    split_ifs
    · exact ⟨hfinal, Nat.lt_succ_self 1⟩
    · exact ⟨hfinal, Nat.zero_lt_succ 1⟩
  | spurious hpc => exact absurd hfinal (hinv.awake hpc)

theorem short_enabled {b : ℕ} (h : Short aw b s) : ∃ a t, next aw s a = some t := by
  obtain ⟨hs, hfinal, hended, -⟩ := h
  have hinv := inv_of_reachable hs
  cases hpc : s.pc with
  | begin =>
    have hinit := hinv.begin hpc
    rw [hfinal] at hinit
    cases hinit
  | start => exact ⟨.startReturns, _, if_pos ⟨hpc, fun _ => hfinal⟩⟩
  | load => exact ⟨.load, _, if_pos hpc⟩
  | futex oldValue =>
    refine ⟨.futex false, s.futex aw oldValue false, ?_⟩
    simp only [next, hpc]
  | asleep => exact absurd hfinal (hinv.awake hpc)
  | ended => exact absurd hpc hended

theorem ranked (aw : Awaitable V E) :
    (system aw).Ranked (fun _ => True) (Short aw) Returned := by
  have hstep : ∀ b s a t, Short aw b s → next aw s a = some t →
      Returned t ∨ ∃ b' < b, Short aw b' t := by
    intro b s a t h hn
    obtain ⟨hfinal, hlt⟩ := short_step h (step_of_next hn)
    have ht : (system aw).Reachable t := .step h.1 trivial hn
    by_cases hended : t.pc = .ended
    · exact .inl (returned_of_ended ht hended)
    · exact .inr ⟨_, hlt, ht, hfinal, hended, rfl⟩
  refine ⟨fun b s h => ?_, fun b s a t h _ hn => hstep b s a t h hn, fun b s a t h hn => ?_⟩
  · obtain ⟨a, t, hn⟩ := short_enabled h
    exact ⟨a, t, trivial, hn⟩
  · rcases hstep b s a t h hn with hret | ⟨b', hlt, ht⟩
    · exact .inl hret
    · exact .inr ⟨b', hlt.le, ht⟩

theorem leads_of_final (hs : (system aw).Reachable s) (hfinal : s.coro = .final) :
    ∃ t, (system aw).Leads s t ∧ t.returned.isSome := by
  by_cases hended : s.pc = .ended
  · exact ⟨s, .refl s, returned_of_ended hs hended⟩
  · exact (ranked aw).leads ⟨hs, hfinal, hended, rfl⟩

end Notified

theorem reachable_flowOff (aw : Awaitable V E) :
    ∃ s, (system aw).Reachable s ∧ s.returned = some aw.flowOff :=
  ⟨_, System.run_reachable (.init rfl) (show (system aw).run .init
    [.start true, .complete, .store, .wake, .startReturns, .load] = some _ from rfl), rfl⟩

theorem handsOver_iff (aw : Awaitable V E) : HandsOver aw ↔ aw = .void (.ok ()) := by
  constructor
  · intro h
    obtain ⟨s, hs, hr⟩ := reachable_flowOff aw
    have heq : aw.flowOff = aw.outcome := ((h s hs).1 _ hr).2
    rcases aw with (e | u) | (e | v)
    · cases heq
    · rfl
    · cases heq
    · cases heq
  · rintro rfl s hs
    refine ⟨fun r hr => ?_, leads_of_final hs⟩
    obtain ⟨hcompleted, hflow, -⟩ := completed_of_returned hs hr
    exact ⟨hcompleted, hflow⟩

/-- The value of an awaitable is not returned. -/
theorem not_handsOver_value : ¬ ∀ aw : Awaitable ℕ Unit, HandsOver aw := by
  intro h
  obtain ⟨s, hs, hr⟩ := reachable_flowOff (.nonVoid (.ok 7) : Awaitable ℕ Unit)
  cases ((h _ s hs).1 _ hr).2

end Suil.Async.SyncWait
