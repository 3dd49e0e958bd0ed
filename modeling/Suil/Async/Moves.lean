import Suil.Lib.Transition
import Suil.Async.Common
import Suil.Async.Thread
import Mathlib.Data.Int.Notation
import Mathlib.Tactic.ByContra
import Mathlib.Algebra.Ring.Nat

/-! Event and Delay objects that are constructed, configured, moved, awaited and
destroyed. A wait runs from `await_suspend` to `await_resume` in one step, so no object is
scheduled between two steps. Both classes guard their operations by `state == CREATED`. -/
namespace Suil.Async.Moves
open Transition
open Thread (State Direction)

/-- A class of awaitables. `construct` fails if the assertion in the constructor does; the
other assertions ask for `created` and are left to the system. `assign v w` is `v` and `w`
after `v = std::move(w)`, and `complete o coro ev v` the object at address `o` after a wait
of `coro` that ended with `ev`. `configured` and `reconfigured` say what was asked for. -/
structure Class (V B A R : Type*) where
  state : V → State
  blank : V
  construct : B → Option V
  configure : A → V → V
  assign : V → V → V × V
  request : V → R
  resume : V → V
  complete : ℕ → ℕ → State → V → V
  configured : B → R
  reconfigured : A → R → R

/-- Where an assertion has failed. -/
inductive Place
  | move
  | destructor
  | other
  deriving DecidableEq

/-- `want` and `waits` are ghosts: what the value in an object was configured with, until
its first wait, and for every first wait what it used and what was wanted. -/
structure Objects (V R : Type*) where
  obj : ℕ → Option V
  want : ℕ → Option R
  failed : Option Place
  waits : List (R × R)

namespace Objects
variable {V R : Type*} (s : Objects V R)

def start : Objects V R := ⟨fun _ => none, fun _ => none, none, []⟩

def put (o : ℕ) (v : Option V) (r : Option R) : Objects V R :=
  { s with obj := Function.update s.obj o v, want := Function.update s.want o r }

def fail (p : Place) : Objects V R := { s with failed := some p }

def log (used : R) : Option R → Objects V R
  | none => s
  | some wanted => { s with waits := (used, wanted) :: s.waits }

end Objects

/-- A move is from `o` to `k`. -/
inductive Act (B A : Type*)
  | construct (o : ℕ) (b : B)
  | configure (o : ℕ) (a : A)
  | moveConstruct (k o : ℕ)
  | moveAssign (k o : ℕ)
  | await (o coro : ℕ) (ev : State)
  | destroy (o : ℕ)

section System
variable {V B A R : Type*} (C : Class V B A R)

/-- `*this = std::move(other)` on different objects. -/
def moveInto (s : Objects V R) (k o : ℕ) (v w : V) : Objects V R :=
  if C.state v = .created then
    (s.put k (some (C.assign v w).1) (s.want o)).put o (some (C.assign v w).2) none
  else s.fail .move

/-- After a failed assertion there is no step. -/
def next (s : Objects V R) : Act B A → Option (Objects V R)
  | .construct o b =>
    if s.failed = none ∧ (s.obj o).isNone then
      match C.construct b with
      | none => some (s.fail .other)
      | some v => some (s.put o (some v) (some (C.configured b)))
    else none
  | .configure o a =>
    if s.failed = none then
      (s.obj o).map fun v =>
        if C.state v = .created then
          s.put o (some (C.configure a v)) ((s.want o).map (C.reconfigured a))
        else s.fail .other
    else none
  | .moveConstruct k o =>
    if s.failed = none ∧ (s.obj k).isNone then
      (s.obj o).map fun w => moveInto C s k o C.blank w
    else none
  | .moveAssign k o =>
    if s.failed = none then
      match s.obj k, s.obj o with
      | some v, some w => some (if k = o then s else moveInto C s k o v w)
      | _, _ => none
    else none
  | .await o coro ev =>
    if s.failed = none then
      (s.obj o).map fun v =>
        if C.state v = .fired then s.put o (some (C.resume v)) (s.want o)
        else if C.state v = .created then
          (s.log (C.request v) (s.want o)).put o (some (C.resume (C.complete o coro ev v))) none
        else s.fail .other
    else none
  | .destroy o =>
    if s.failed = none then
      (s.obj o).map fun v =>
        if C.state v = .created then s.put o none none else s.fail .destructor
    else none

def system : System (Objects V R) (Act B A) where
  init s := s = .start
  next := next C

end System

/-- The fields of `Event::Handle`; `dd` and `target` are those of `timerHandle`. -/
structure Handle where
  dd : ℤ
  target : Option ℕ
  fd : ℤ
  tid : ℕ
  state : State
  ion : Direction
  coro : Option ℕ
  deriving DecidableEq

/-- What a wait on an Event uses. -/
structure EventRequest where
  fd : ℤ
  ion : Direction
  dd : ℤ
  tid : ℕ
  deriving DecidableEq

/-- The arguments of `operator()`. -/
inductive EventArg
  | io (ion : Direction)
  | dd (dd : ℤ)

namespace Event

def blank : Handle := ⟨0, none, INVALID_FD, THREAD_ID_ANY, .created, .IN, none⟩

/-- `Event(fd, affinity)`. -/
def construct (b : ℤ × ℕ) : Option Handle :=
  if b.1 ≠ INVALID_FD then some { blank with fd := b.1, tid := b.2 } else none

def configure : EventArg → Handle → Handle
  | .io ion, h => { h with ion }
  | .dd dd, h => { h with dd }

/-- `Event::operator=`, which carries everything over except `ion`. -/
def assign (this other : Handle) : Handle × Handle :=
  ({ this with
      state := other.state, tid := other.tid, fd := other.fd, dd := other.dd,
      target := other.target, coro := other.coro },
    { other with
      state := .abandoned, tid := 0, fd := INVALID_FD, dd := 0, target := none, coro := none })

def request (h : Handle) : EventRequest := ⟨h.fd, h.ion, h.dd, h.tid⟩

/-- `Thread::add` links the timer if there is a deadline, and whoever ends the wait before
the deadline resets the timer. -/
def complete (o coro : ℕ) (ev : State) (h : Handle) : Handle :=
  if 0 < h.dd then
    if ev = .timeout then { h with state := ev, coro := some coro, target := some o }
    else { h with state := ev, coro := some coro, dd := 0, target := none }
  else { h with state := ev, coro := some coro }

def resume (h : Handle) : Handle := { h with coro := none, state := .created }

end Event

/-- The fields of a `Delay`. -/
structure Delay where
  dd : ℤ
  target : Option ℕ
  state : State
  coro : Option ℕ
  tID : ℕ
  deriving DecidableEq

structure DelayRequest where
  dd : ℤ
  tID : ℕ
  deriving DecidableEq

/-- The arguments of the constructor, and `fastnow()` at the time. -/
structure DelayArgs where
  now : ℤ
  timeout : ℤ
  tid : ℕ

namespace Delay

def blank : Delay := ⟨0, none, .created, none, THREAD_ID_ANY⟩

def construct (b : DelayArgs) : Option Delay :=
  some { blank with dd := b.now + b.timeout, tID := b.tid }

/-- `Delay::operator=`. -/
def assign (_this other : Delay) : Delay × Delay :=
  (⟨other.dd, other.target, other.state, other.coro, other.tID⟩, ⟨0, none, .abandoned, none, 0⟩)

def request (d : Delay) : DelayRequest := ⟨d.dd, d.tID⟩

/-- `Thread::add` sets the target; `Thread::remove` resets the timer. -/
def complete (o coro : ℕ) (ev : State) (d : Delay) : Delay :=
  if ev = .abandoned then { d with state := ev, coro := some coro, dd := 0, target := none }
  else { d with state := ev, coro := some coro, target := some o }

def resume (d : Delay) : Delay := { d with state := .created }

end Delay

section Safety
variable {V B A R : Type*} (C : Class V B A R)

/-- No assertion of a move or of a destructor has failed, and every first wait has used what
its value was configured with. -/
structure Safe (s : Objects V R) : Prop where
  move : s.failed ≠ some .move
  destructor : s.failed ≠ some .destructor
  waits : ∀ p ∈ s.waits, p.1 = p.2

/-- No object left behind by a move is destroyed or assigned to, and a value that still has
its first wait to come is moved between objects that `agree` only. -/
def Ok (agree : V → V → Prop) (s : Objects V R) : Act B A → Prop
  | .moveConstruct _ o => ∀ w, s.obj o = some w → (s.want o).isSome → agree C.blank w
  | .moveAssign k o => k ≠ o → ∀ v w, s.obj k = some v → s.obj o = some w →
      C.state v ≠ .abandoned ∧ ((s.want o).isSome → agree v w)
  | .destroy o => ∀ v, s.obj o = some v → C.state v ≠ .abandoned
  | _ => True

/-- What the operations of a class do to the state and to the next wait. -/
structure Lawful (agree : V → V → Prop) : Prop where
  blank : C.state C.blank = .created
  construct : ∀ {b v}, C.construct b = some v →
    C.state v = .created ∧ C.request v = C.configured b
  configure : ∀ a v, C.state (C.configure a v) = C.state v ∧
    C.request (C.configure a v) = C.reconfigured a (C.request v)
  assign : ∀ v w, C.state (C.assign v w).1 = C.state w ∧
    C.state (C.assign v w).2 = .abandoned
  carries : ∀ v w, C.request (C.assign v w).1 = C.request w ↔ agree v w
  resume : ∀ v, C.state (C.resume v) = .created

end Safety

section Run
variable {V B A R : Type*} {C : Class V B A R} {agree : V → V → Prop} {s t : Objects V R}

/-- An object is as constructed or left behind by a move; what is wanted of its value is what
a wait would use. -/
structure Good (C : Class V B A R) (v : V) (want : Option R) : Prop where
  state : C.state v = .created ∨ C.state v = .abandoned
  want : ∀ r, want = some r → C.state v = .created ∧ C.request v = r

structure Inv (C : Class V B A R) (s : Objects V R) : Prop where
  safe : Safe s
  good : ∀ o v, s.obj o = some v → Good C v (s.want o)

theorem inv_put {o : ℕ} {v : Option V} {r : Option R} (hs : Inv C s)
    (hv : ∀ w, v = some w → Good C w r) : Inv C (s.put o v r) where
  safe := ⟨hs.safe.move, hs.safe.destructor, hs.safe.waits⟩
  good k w hk := by
    by_cases hko : k = o
    · subst hko
      simp only [Objects.put, Function.update_self] at hk ⊢
      exact hv w hk
    · simp only [Objects.put, Function.update_of_ne hko] at hk ⊢
      exact hs.good k w hk

theorem inv_fail_other (hs : Inv C s) : Inv C (s.fail .other) where
  safe := ⟨by simp [Objects.fail], by simp [Objects.fail], hs.safe.waits⟩
  good := hs.good

/-- The move of the value of `o` into `k`, whose object is `v`. -/
theorem inv_moveInto (hC : Lawful C agree) {k o : ℕ} {v w : V} (hs : Inv C s)
    (ho : s.obj o = some w) (hv : C.state v = .created)
    (hagree : (s.want o).isSome → agree v w) : Inv C (moveInto C s k o v w) := by
  have hw := hs.good o w ho
  obtain ⟨hfst, hsnd⟩ := hC.assign v w
  unfold moveInto
  rw [if_pos hv]
  refine inv_put (inv_put hs ?_) ?_
  · rintro v' hv'
    obtain rfl := Option.some.inj hv'
    constructor
    · rw [hfst]
      exact hw.state
    · intro r hr
      obtain ⟨hcreated, hrequest⟩ := hw.want r hr
      have hcarries := (hC.carries v w).mpr (hagree (by rw [hr]; rfl))
      exact ⟨hfst.trans hcreated, hcarries.trans hrequest⟩
  · rintro w' hw'
    obtain rfl := Option.some.inj hw'
    exact ⟨.inr hsnd, nofun⟩

theorem created_of_good {v : V} {want : Option R} (hv : Good C v want)
    (ha : C.state v ≠ .abandoned) : C.state v = .created :=
  hv.state.resolve_right ha

theorem inv_log {used : R} {want : Option R} (hs : Inv C s)
    (h : ∀ r, want = some r → used = r) : Inv C (s.log used want) := by
  cases want with
  | none => exact hs
  | some r =>
    refine ⟨⟨hs.safe.move, hs.safe.destructor, ?_⟩, hs.good⟩
    intro p hp
    rcases List.mem_cons.mp hp with rfl | hp
    · exact h r rfl
    · exact hs.safe.waits p hp

theorem inv_await (hC : Lawful C agree) {o coro : ℕ} {ev : State} (hs : Inv C s)
    (hn : next C s (.await o coro ev) = some t) : Inv C t := by
  obtain ⟨-, hn⟩ := Option.ite_none_right_eq_some.mp hn
  obtain ⟨v, hv, rfl⟩ := Option.map_eq_some_iff.mp hn
  have hgood := hs.good o v hv
  split_ifs with hfired hcreated
  · rcases hgood.state with h | h <;> rw [h] at hfired <;> exact absurd hfired nofun
  · refine inv_put (inv_log hs fun r hr => (hgood.want r hr).2) ?_
    rintro w hw
    obtain rfl := Option.some.inj hw
    exact ⟨.inl (hC.resume _), nofun⟩
  · exact inv_fail_other hs

theorem inv_next (hC : Lawful C agree) {a : Act B A} (hs : Inv C s) (hok : Ok C agree s a)
    (hn : next C s a = some t) : Inv C t := by
  cases a with
  | construct o b =>
    obtain ⟨-, hn⟩ := Option.ite_none_right_eq_some.mp hn
    cases hb : C.construct b with
    | none =>
      simp only [hb] at hn
      exact Option.some.inj hn ▸ inv_fail_other hs
    | some v =>
      simp only [hb] at hn
      obtain ⟨hstate, hrequest⟩ := hC.construct hb
      refine Option.some.inj hn ▸ inv_put hs fun w hw => ?_
      obtain rfl := Option.some.inj hw
      exact ⟨.inl hstate, fun r hr => ⟨hstate, hrequest.trans (Option.some.inj hr)⟩⟩
  | configure o a =>
    obtain ⟨-, hn⟩ := Option.ite_none_right_eq_some.mp hn
    obtain ⟨v, hv, rfl⟩ := Option.map_eq_some_iff.mp hn
    obtain ⟨hstate, hrequest⟩ := hC.configure a v
    split_ifs with hcreated
    · refine inv_put hs fun w hw => ?_
      obtain rfl := Option.some.inj hw
      refine ⟨.inl (hstate.trans hcreated), fun r hr => ⟨hstate.trans hcreated, ?_⟩⟩
      obtain ⟨r', hr', rfl⟩ := Option.map_eq_some_iff.mp hr
      rw [hrequest, ((hs.good o v hv).want r' hr').2]
    · exact inv_fail_other hs
  | moveConstruct k o =>
    obtain ⟨-, hn⟩ := Option.ite_none_right_eq_some.mp hn
    obtain ⟨w, hw, rfl⟩ := Option.map_eq_some_iff.mp hn
    exact inv_moveInto hC hs hw hC.blank (hok w hw)
  | moveAssign k o =>
    obtain ⟨-, hn⟩ := Option.ite_none_right_eq_some.mp hn
    split at hn
    next v w hv hw =>
      rw [← Option.some.inj hn]
      split_ifs with hko
      · exact hs
      · obtain ⟨hstate, hagree⟩ := hok hko v w hv hw
        exact inv_moveInto hC hs hw (created_of_good (hs.good k v hv) hstate) hagree
    next => exact absurd hn nofun
  | await o coro ev => exact inv_await hC hs hn
  | destroy o =>
    obtain ⟨-, hn⟩ := Option.ite_none_right_eq_some.mp hn
    obtain ⟨v, hv, rfl⟩ := Option.map_eq_some_iff.mp hn
    rw [if_pos (created_of_good (hs.good o v hv) (hok v hv))]
    exact inv_put hs nofun

theorem inductive_inv (hC : Lawful C agree) : (system C).Inductive (Ok C agree) (Inv C) where
  init _ hs := hs ▸ ⟨⟨nofun, nofun, nofun⟩, nofun⟩
  step _ _ _ hs hok hn := inv_next hC hs hok hn

end Run

end Suil.Async.Moves
