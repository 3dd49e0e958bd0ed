import Suil.Lib.Transition
import Mathlib.Data.Nat.Notation
import Mathlib.Logic.Function.Basic
import Mathlib.Algebra.Ring.Nat
import Mathlib.Order.Lattice
import Mathlib.Tactic.SplitIfs

/-! `onScopeExit`, `onScopeFailure` and `onScopeSuccess`: the two templates of guards, and
nested scopes that are left normally or by an exception while guards are created, moved,
cancelled and destroyed. A function is held by value, named by the call that it came with, and
does not throw. -/
namespace Suil.Async.Guards
open Transition

structure ScopedLambda where
  func : ℕ
  cancelled : Bool

namespace ScopedLambda

def new (func : ℕ) : ScopedLambda := ⟨func, false⟩

/-- The new object, and the one that is moved from. -/
def moveConstruct (other : ScopedLambda) : ScopedLambda × ScopedLambda :=
  (⟨other.func, other.cancelled⟩, ⟨other.func, true⟩)

/-- `this` and `other` after `*this = std::move(other)`, where `same` says that they are one
object; its flag is then what it was. -/
def moveAssign (this other : ScopedLambda) (same : Bool) : ScopedLambda × ScopedLambda :=
  if same then (⟨other.func, other.cancelled⟩, ⟨other.func, other.cancelled⟩) else (this, other)

def cancel (g : ScopedLambda) : ScopedLambda := { g with cancelled := true }

/-- The function that the destructor calls. -/
def destroy (g : ScopedLambda) : Option ℕ := if ¬ g.cancelled then some g.func else none

end ScopedLambda

structure ConditionalScopedLambda where
  func : ℕ
  uncaughtExceptionCount : ℕ
  cancelled : Bool

namespace ConditionalScopedLambda

def new (func uncaught : ℕ) : ConditionalScopedLambda := ⟨func, uncaught, false⟩

def cancel (g : ConditionalScopedLambda) : ConditionalScopedLambda := { g with cancelled := true }

def moveConstruct (other : ConditionalScopedLambda) :
    ConditionalScopedLambda × ConditionalScopedLambda :=
  (⟨other.func, other.uncaughtExceptionCount, other.cancelled⟩, cancel ⟨other.func, 0, true⟩)

def moveAssign (this other : ConditionalScopedLambda) (same : Bool) :
    ConditionalScopedLambda × ConditionalScopedLambda :=
  if ¬ same then
    (⟨other.func, other.uncaughtExceptionCount, other.cancelled⟩, ⟨other.func, 0, true⟩)
  else (this, other)

def is_unwinding_due_to_exception (g : ConditionalScopedLambda) (uncaught : ℕ) : Bool :=
  uncaught > g.uncaughtExceptionCount

def destroy (CoF : Bool) (g : ConditionalScopedLambda) (uncaught : ℕ) : Option ℕ :=
  if ¬ g.cancelled ∧ g.is_unwinding_due_to_exception uncaught = CoF then some g.func else none

end ConditionalScopedLambda

/-- A guard of one of the templates. -/
inductive Guard
  | plain (g : ScopedLambda)
  | conditional (CoF : Bool) (g : ConditionalScopedLambda)

def onScopeExit (func : ℕ) : Guard := .plain (.new func)

def onScopeFailure (func uncaught : ℕ) : Guard := .conditional true (.new func uncaught)

def onScopeSuccess (func uncaught : ℕ) : Guard := .conditional true (.new func uncaught)

namespace Guard

def cancel : Guard → Guard
  | plain g => plain g.cancel
  | conditional CoF g => conditional CoF g.cancel

def moveConstruct : Guard → Guard × Guard
  | plain g => (plain g.moveConstruct.1, plain g.moveConstruct.2)
  | conditional CoF g => (conditional CoF g.moveConstruct.1, conditional CoF g.moveConstruct.2)

/-- Guards of different types are not assigned to each other. -/
def moveAssign (same : Bool) : Guard → Guard → Option (Guard × Guard)
  | plain g, plain h => some (plain (g.moveAssign h same).1, plain (g.moveAssign h same).2)
  | conditional CoF g, conditional CoF' h =>
    if CoF = CoF' then
      some (conditional CoF (g.moveAssign h same).1, conditional CoF (g.moveAssign h same).2)
    else none
  | _, _ => none

def destroy (uncaught : ℕ) : Guard → Option ℕ
  | plain g => g.destroy
  | conditional CoF g => g.destroy CoF uncaught

end Guard

/-- The calls that create guards. -/
inductive Kind
  | exit
  | failure
  | success
  deriving DecidableEq

def Kind.create : Kind → ℕ → ℕ → Guard
  | exit, func, _ => onScopeExit func
  | failure, func, uncaught => onScopeFailure func uncaught
  | success, func, uncaught => onScopeSuccess func uncaught

/-- Whether a function runs when its scope is left. -/
def Kind.due : Kind → Bool → Bool
  | exit, _ => true
  | failure, exceptional => exceptional
  | success, exceptional => !exceptional

/-- How a scope is left, once it is. -/
inductive Leaving
  | inside
  | normally
  | byException
  deriving DecidableEq

structure Frame where
  id : ℕ
  leaving : Leaving

/-- The destruction of a guard: the function that it owned and where that came from, how the
scope was left, and the function that the destructor called. -/
structure Destruction where
  owned : Option (ℕ × Kind)
  exceptional : Bool
  called : Option ℕ

/-- The function is called if the guard owned one that is due. -/
def Destruction.Right (d : Destruction) : Prop :=
  d.called = d.owned.bind fun f => if f.2.due d.exceptional then some f.1 else none

instance (d : Destruction) : Decidable d.Right := inferInstanceAs (Decidable (_ = _))

/-- The scopes that have been entered, innermost first, and the guards in them. The ghosts are
the number of exceptions in flight when a scope was entered, the function that a guard owns,
where a function came from, and the destructions so far. -/
structure Scopes where
  uncaught : ℕ
  frames : List Frame
  object : ℕ → Option Guard
  scope : ℕ → ℕ
  next : ℕ
  entered : ℕ → ℕ
  owned : ℕ → Option ℕ
  origin : ℕ → Kind
  log : List Destruction

inductive Act
  | enter
  | create (k : Kind)
  | moveConstruct (x id : ℕ)
  | moveAssign (y x : ℕ)
  | cancel (x : ℕ)
  | leave
  | throw
  | destroy (x : ℕ)
  | finish
  | handle
  | propagate

namespace Scopes
variable (s : Scopes)

def start : Scopes := ⟨0, [], fun _ => none, fun _ => 0, 0, fun _ => 0, fun _ => none, fun _ => .exit, []⟩

/-- The scope `id` has been entered and is not being left. -/
def isInside (id : ℕ) : Bool := s.frames.any fun f => f.id == id && f.leaving == .inside

/-- No guard of the scope was constructed after `x` and is there still. -/
def isLast (x : ℕ) : Bool :=
  (List.range s.next).all fun y => y ≤ x || s.scope y ≠ s.scope x || (s.object y).isNone

def isEmpty (id : ℕ) : Bool :=
  (List.range s.next).all fun y => s.scope y ≠ id || (s.object y).isNone

/-- A new guard in the scope `id`, which owns the function. -/
def put (id : ℕ) (g : Guard) (f : Option ℕ) : Scopes :=
  { s with
    object := Function.update s.object s.next (some g)
    scope := Function.update s.scope s.next id
    owned := Function.update s.owned s.next f
    next := s.next + 1 }

def set (x : ℕ) (g : Option Guard) (f : Option ℕ) : Scopes :=
  { s with object := Function.update s.object x g, owned := Function.update s.owned x f }

def record (x : ℕ) (exceptional : Bool) (called : Option ℕ) : Scopes :=
  { s with log := ⟨(s.owned x).map fun f => (f, s.origin f), exceptional, called⟩ :: s.log }

end Scopes

/-- A guard may be constructed by a move in any scope that is not being left, and code may
enter a scope at any time: the function of a guard runs while its scope is left. -/
def next (s : Scopes) : Act → Option Scopes
  | .enter =>
    some { s with
      frames := ⟨s.next, .inside⟩ :: s.frames
      entered := Function.update s.entered s.next s.uncaught
      next := s.next + 1 }
  | .create k =>
    match s.frames with
    | ⟨id, .inside⟩ :: _ =>
      some { s.put id (k.create s.next s.uncaught) (some s.next) with
        origin := Function.update s.origin s.next k }
    | _ => none
  | .moveConstruct x id =>
    if s.isInside id then
      (s.object x).map fun g =>
        (s.put id g.moveConstruct.1 (s.owned x)).set x (some g.moveConstruct.2) none
    else none
  | .moveAssign y x =>
    match s.object y, s.object x with
    | some g, some h =>
      (g.moveAssign (y == x) h).map fun gs =>
        if y = x then s.set x (some gs.1) (s.owned x)
        else (s.set y (some gs.1) (s.owned x)).set x (some gs.2) none
    | _, _ => none
  | .cancel x => (s.object x).map fun g => s.set x (some g.cancel) none
  | .leave =>
    match s.frames with
    | ⟨id, .inside⟩ :: fs => some { s with frames := ⟨id, .normally⟩ :: fs }
    | _ => none
  | .throw =>
    match s.frames with
    | ⟨id, .inside⟩ :: fs =>
      some { s with frames := ⟨id, .byException⟩ :: fs, uncaught := s.uncaught + 1 }
    | _ => none
  | .destroy x =>
    match s.frames, s.object x with
    | f :: _, some g =>
      if f.leaving ≠ .inside ∧ s.scope x = f.id ∧ s.isLast x then
        some ((s.record x (f.leaving = .byException) (g.destroy s.uncaught)).set x none none)
      else none
    | _, _ => none
  | .finish =>
    match s.frames with
    | ⟨id, .normally⟩ :: fs => if s.isEmpty id then some { s with frames := fs } else none
    | _ => none
  | .handle =>
    match s.frames with
    | ⟨id, .byException⟩ :: fs =>
      if s.isEmpty id then some { s with frames := fs, uncaught := s.uncaught - 1 } else none
    | _ => none
  | .propagate =>
    match s.frames with
    | ⟨id, .byException⟩ :: ⟨id', .inside⟩ :: fs =>
      if s.isEmpty id then some { s with frames := ⟨id', .byException⟩ :: fs } else none
    | _ => none

def system : System Scopes Act where
  init s := s = .start
  next := next

/-- The template of a guard, and the parameter `CoF`, if it has one. -/
def Guard.template : Guard → Option Bool
  | plain _ => none
  | conditional CoF _ => some CoF

def Guard.func : Guard → ℕ
  | plain g => g.func
  | conditional _ g => g.func

def Guard.cancelled : Guard → Bool
  | plain g => g.cancelled
  | conditional _ g => g.cancelled

/-- What the calls instantiate. -/
def Kind.template : Kind → Option Bool
  | exit => none
  | _ => some true

/-- With the count that was saved and the number of exceptions in flight when the scope was
entered, the guard calls its function when it is due. -/
def Kind.Counts (k : Kind) (count entered : ℕ) (exceptional : Bool) : Prop :=
  match k with
  | exit => True
  | failure => if exceptional then count ≤ entered else entered ≤ count
  | success => if exceptional then entered < count else count < entered

/-- No guard from `onScopeExit` is assigned to another while one of them owns a function, and
the count of a guard that is destroyed with its function is one that serves. -/
def Served (s : Scopes) : Act → Prop
  | .moveAssign y x => y ≠ x → ∀ g, s.object x = some (.plain g) → s.owned y = none ∧ s.owned x = none
  | .destroy x => ∀ f ∈ s.frames.head?, ∀ CoF g c, s.object x = some (.conditional CoF g) →
      s.owned x = some c →
        (s.origin c).Counts g.uncaughtExceptionCount (s.entered f.id) (f.leaving = .byException)
  | _ => True

/-- Every guard calls the function that it owns when that is due and nothing else, and no
function is called twice. -/
structure Once (s : Scopes) : Prop where
  right : ∀ d ∈ s.log, d.Right
  nodup : (s.log.filterMap Destruction.called).Nodup

/-- The guard is cancelled if it owns nothing, and has what it owns if it does. -/
def Guard.Owns (g : Guard) (origin : ℕ → Kind) : Option ℕ → Prop
  | none => g.cancelled = true
  | some f => g.cancelled = false ∧ g.func = f ∧ g.template = (origin f).template

section Guards
variable {g h : Guard} {gs : Guard × Guard} {origin : ℕ → Kind} {o : Option ℕ} {f u n : ℕ}
  {k : Kind} {e : Bool}

theorem Guard.owns_create (hk : origin f = k) : (k.create f u).Owns origin (some f) := by
  have htemplate : (k.create f u).template = (origin f).template := by
    rw [hk]
    cases k <;> rfl
  cases k with
  | exit => exact ⟨rfl, rfl, htemplate⟩
  | failure => exact ⟨rfl, rfl, htemplate⟩
  | success => exact ⟨rfl, rfl, htemplate⟩

theorem Guard.owns_cancel (g : Guard) (origin : ℕ → Kind) : g.cancel.Owns origin none := by
  cases g with
  | plain g => rfl
  | conditional CoF g => rfl

theorem Guard.Owns.moveConstruct (hg : g.Owns origin o) :
    g.moveConstruct.1.Owns origin o ∧ g.moveConstruct.2.Owns origin none := by
  cases g with
  | plain g => exact ⟨by cases o <;> exact hg, rfl⟩
  | conditional CoF g => exact ⟨by cases o <;> exact hg, rfl⟩

/-- An assignment of a guard to itself leaves it as it is. -/
theorem Guard.moveAssign_self (hgs : g.moveAssign true g = some gs) : gs.1 = g := by
  cases g with
  | plain g =>
    cases hgs
    rfl
  | conditional CoF g =>
    rw [Guard.moveAssign, if_pos rfl] at hgs
    cases hgs
    rfl

/-- An assignment to another guard of the template with a count. -/
theorem Guard.Owns.moveAssign (hh : h.Owns origin o) (hgs : g.moveAssign false h = some gs)
    (hplain : ∀ p, h ≠ .plain p) : gs.1.Owns origin o ∧ gs.2.Owns origin none := by
  cases h with
  | plain p => exact absurd rfl (hplain p)
  | conditional CoF' h =>
    cases g with
    | plain p => cases hgs
    | conditional CoF g =>
      rw [Guard.moveAssign] at hgs
      split at hgs
      · next heq =>
        subst heq
        cases hgs
        exact ⟨by cases o <;> exact hh, rfl⟩
      · cases hgs

/-- An assignment to another guard of the template without one does nothing. -/
theorem Guard.moveAssign_plain {p : ScopedLambda} (hgs : g.moveAssign false (.plain p) = some gs) :
    gs = (g, .plain p) := by
  cases g with
  | plain q =>
    cases hgs
    rfl
  | conditional CoF g => cases hgs

/-- Where the counts serve, the comparison in the destructor says whether the function is due. -/
theorem ConditionalScopedLambda.unwinding_iff {g : ConditionalScopedLambda} {CoF : Bool}
    (ht : some CoF = k.template) (hc : k.Counts g.uncaughtExceptionCount n e) :
    g.is_unwinding_due_to_exception (n + if e then 1 else 0) = CoF ↔ k.due e = true := by
  unfold ConditionalScopedLambda.is_unwinding_due_to_exception
  cases k with
  | exit => cases ht
  | failure =>
    cases ht
    cases e with
    | false =>
      have hcount : n ≤ g.uncaughtExceptionCount := hc
      simp [Kind.due, hcount]
    | true =>
      have hcount : g.uncaughtExceptionCount ≤ n := hc
      simp [Kind.due]
      omega
  | success =>
    cases ht
    cases e with
    | false =>
      have hcount : g.uncaughtExceptionCount < n := hc
      simp [Kind.due, hcount]
    | true =>
      have hcount : n < g.uncaughtExceptionCount := hc
      simp [Kind.due]
      omega

/-- What the destructor calls, with as many exceptions in flight as when the scope was entered
and one more if it is left by one. -/
theorem Guard.Owns.destroy (hg : g.Owns origin o)
    (hc : ∀ CoF c f, g = .conditional CoF c → o = some f →
      (origin f).Counts c.uncaughtExceptionCount n e) :
    g.destroy (n + if e then 1 else 0) =
      o.bind fun f => if (origin f).due e then some f else none := by
  cases o with
  | none =>
    have hcancelled : g.cancelled = true := hg
    cases g with
    | plain g =>
      have hflag : g.cancelled = true := hcancelled
      exact if_neg fun hno => hno hflag
    | conditional CoF g =>
      have hflag : g.cancelled = true := hcancelled
      exact if_neg fun hno => hno.1 hflag
  | some f =>
    obtain ⟨hcancelled, hfunc, htemplate⟩ := hg
    cases g with
    | plain g =>
      have hflag : g.cancelled = false := hcancelled
      have hkind : origin f = .exit := by
        cases hk : origin f with
        | exit => rfl
        | failure => rw [hk] at htemplate; cases htemplate
        | success => rw [hk] at htemplate; cases htemplate
      have hdue : (origin f).due e = true := by rw [hkind]; rfl
      rw [Option.bind_some, if_pos hdue, ← hfunc]
      exact if_pos (by simp [hflag])
    | conditional CoF g =>
      have hflag : g.cancelled = false := hcancelled
      have hfunc' : g.func = f := hfunc
      have hcount := hc CoF g f rfl rfl
      have hiff : g.is_unwinding_due_to_exception (n + if e then 1 else 0) = CoF ↔
          (origin f).due e = true := ConditionalScopedLambda.unwinding_iff htemplate hcount
      rw [Option.bind_some]
      simp only [Guard.destroy, ConditionalScopedLambda.destroy, hflag, hiff, hfunc']
      simp

end Guards

/-- Which guards there are below the name `n`, what they own, and the functions that were
called. -/
structure Owners (origin : ℕ → Kind) (n : ℕ) (object : ℕ → Option Guard) (owned : ℕ → Option ℕ)
    (calls : List ℕ) : Prop where
  fresh : ∀ x, n ≤ x → object x = none
  owns : ∀ x g, object x = some g → g.Owns origin (owned x)
  dead : ∀ x, object x = none → owned x = none
  unique : ∀ x y f, owned x = some f → owned y = some f → x = y
  bound : ∀ x f, owned x = some f → f < n ∧ f ∉ calls
  called : ∀ f ∈ calls, f < n
  nodup : calls.Nodup

section Owners
variable {origin : ℕ → Kind} {n m x y f : ℕ} {object : ℕ → Option Guard} {owned : ℕ → Option ℕ}
  {calls : List ℕ} {g h : Guard} {k : Kind}

theorem Owners.lt (hO : Owners origin n object owned calls) (hx : object x = some g) : x < n := by
  by_contra hno
  rw [hO.fresh x (Nat.not_lt.mp hno)] at hx
  cases hx

theorem Owners.mono (hO : Owners origin n object owned calls) (hnm : n ≤ m) :
    Owners origin m object owned calls where
  fresh x hx := hO.fresh x (Nat.le_trans hnm hx)
  owns := hO.owns
  dead := hO.dead
  unique := hO.unique
  bound x f hf := ⟨Nat.lt_of_lt_of_le (hO.bound x f hf).1 hnm, (hO.bound x f hf).2⟩
  called f hf := Nat.lt_of_lt_of_le (hO.called f hf) hnm
  nodup := hO.nodup

/-- `x` owns nothing any more, and is destroyed or cancelled. -/
theorem Owners.drop (hO : Owners origin n object owned calls) (hx : x < n) {g : Option Guard}
    (hg : ∀ h, g = some h → h.Owns origin none) :
    Owners origin n (Function.update object x g) (Function.update owned x none) calls := by
  have howned : ∀ {z f}, Function.update owned x none z = some f → owned z = some f := by
    intro z f hz
    rw [Function.update_apply] at hz
    split_ifs at hz
    exact hz
  refine ⟨fun z hz => ?_, fun z h hz => ?_, fun z hz => ?_, fun z w f hz hw =>
    hO.unique z w f (howned hz) (howned hw), fun z f hz => hO.bound z f (howned hz), hO.called,
    hO.nodup⟩
  · rw [Function.update_of_ne (by omega)]
    exact hO.fresh z hz
  · rw [Function.update_apply] at hz ⊢
    split_ifs at hz ⊢ with hzx
    · exact hg h hz
    · exact hO.owns z h hz
  · rw [Function.update_apply] at hz ⊢
    split_ifs at hz ⊢ with hzx
    · rfl
    · exact hO.dead z hz

/-- What `x` owned goes over to `y`. -/
theorem Owners.move (hO : Owners origin n object owned calls) (hx : x < n) (hy : y < n)
    (hg : g.Owns origin (owned x)) (hh : h.Owns origin none) :
    Owners origin n (Function.update (Function.update object y (some g)) x (some h))
      (Function.update (Function.update owned y (owned x)) x none) calls := by
  have howned : ∀ {z f}, Function.update (Function.update owned y (owned x)) x none z = some f →
      z = y ∧ owned x = some f ∨ z ≠ y ∧ z ≠ x ∧ owned z = some f := by
    intro z f hz
    rw [Function.update_apply, Function.update_apply] at hz
    split_ifs at hz with hzx hzy
    · exact .inl ⟨hzy, hz⟩
    · exact .inr ⟨hzy, hzx, hz⟩
  refine ⟨fun z hz => ?_, fun z w hz => ?_, fun z hz => ?_, fun z w f hz hw => ?_,
    fun z f hz => ?_, hO.called, hO.nodup⟩
  · rw [Function.update_of_ne (by omega), Function.update_of_ne (by omega)]
    exact hO.fresh z hz
  · rw [Function.update_apply, Function.update_apply] at hz ⊢
    split_ifs at hz ⊢ with hzx hzy
    · cases hz
      exact hh
    · cases hz
      exact hg
    · exact hO.owns z w hz
  · rw [Function.update_apply, Function.update_apply] at hz ⊢
    split_ifs at hz ⊢ with hzx hzy
    exact hO.dead z hz
  · rcases howned hz with ⟨hzy, hz⟩ | ⟨hzy, hzx, hz⟩ <;>
      rcases howned hw with ⟨hwy, hw⟩ | ⟨hwy, hwx, hw⟩
    · exact hzy.trans hwy.symm
    · exact absurd (hO.unique w x f hw hz) hwx
    · exact absurd (hO.unique z x f hz hw) hzx
    · exact hO.unique z w f hz hw
  · rcases howned hz with ⟨-, hz⟩ | ⟨-, -, hz⟩
    · exact hO.bound x f hz
    · exact hO.bound z f hz

/-- A new guard comes with a new function. -/
theorem Owners.create (hO : Owners origin n object owned calls)
    (hg : g.Owns (Function.update origin n k) (some n)) :
    Owners (Function.update origin n k) (n + 1) (Function.update object n (some g))
      (Function.update owned n (some n)) calls := by
  have howns : ∀ {h : Guard} {o : Option ℕ}, h.Owns origin o → (∀ f, o = some f → f < n) →
      h.Owns (Function.update origin n k) o := by
    intro h o ho hlt
    cases o with
    | none => exact ho
    | some f =>
      have hne : f ≠ n := Nat.ne_of_lt (hlt f rfl)
      obtain ⟨hcancelled, hfunc, htemplate⟩ := ho
      refine ⟨hcancelled, hfunc, ?_⟩
      rw [Function.update_of_ne hne]
      exact htemplate
  have howned : ∀ {z f}, Function.update owned n (some n) z = some f →
      z = n ∧ f = n ∨ z ≠ n ∧ owned z = some f ∧ f < n := by
    intro z f hz
    rw [Function.update_apply] at hz
    split_ifs at hz with hzn
    · exact .inl ⟨hzn, (Option.some.inj hz).symm⟩
    · exact .inr ⟨hzn, hz, (hO.bound z f hz).1⟩
  refine ⟨fun z hz => ?_, fun z w hz => ?_, fun z hz => ?_, fun z w f hz hw => ?_,
    fun z f hz => ?_, fun f hf => Nat.lt_succ_of_lt (hO.called f hf), hO.nodup⟩
  · rw [Function.update_of_ne (by omega)]
    exact hO.fresh z (by omega)
  · rw [Function.update_apply] at hz
    rw [Function.update_apply]
    split_ifs at hz ⊢ with hzn
    · cases hz
      exact hg
    · exact howns (hO.owns z w hz) fun f hf => (hO.bound z f hf).1
  · rw [Function.update_apply] at hz ⊢
    split_ifs at hz ⊢ with hzn
    exact hO.dead z hz
  · rcases howned hz with ⟨hzn, hf⟩ | ⟨-, hz, hlt⟩ <;>
      rcases howned hw with ⟨hwn, hf'⟩ | ⟨-, hw, hlt'⟩
    · exact hzn.trans hwn.symm
    · omega
    · omega
    · exact hO.unique z w f hz hw
  · rcases howned hz with ⟨-, rfl⟩ | ⟨-, hz, hlt⟩
    · exact ⟨Nat.lt_succ_self f, fun hf => Nat.lt_irrefl f (hO.called f hf)⟩
    · exact ⟨Nat.lt_succ_of_lt hlt, (hO.bound z f hz).2⟩

/-- `x` is destroyed, and its function is called. -/
theorem Owners.call (hO : Owners origin n object owned calls) (hx : object x = some g)
    (hf : owned x = some f) :
    Owners origin n (Function.update object x none) (Function.update owned x none)
      (f :: calls) := by
  have hdrop := hO.drop (hO.lt hx) (g := none) (by intro h hh; cases hh)
  obtain ⟨hlt, hnot⟩ := hO.bound x f hf
  refine ⟨hdrop.fresh, hdrop.owns, hdrop.dead, hdrop.unique, fun z c hz => ?_, fun c hc => ?_,
    List.nodup_cons.mpr ⟨hnot, hO.nodup⟩⟩
  · refine ⟨(hdrop.bound z c hz).1, fun hmem => ?_⟩
    rcases List.mem_cons.mp hmem with rfl | hmem
    · rw [Function.update_apply] at hz
      split_ifs at hz with hzx
      exact hzx (hO.unique z x c hz hf)
    · exact (hdrop.bound z c hz).2 hmem
  · rcases List.mem_cons.mp hc with rfl | hc
    · exact hlt
    · exact hO.called c hc

end Owners

/-- Each scope was entered with the exceptions in flight that its outer ones leave in flight. -/
def InFlight (entered : ℕ → ℕ) : ℕ → List Frame → Prop
  | u, [] => u = 0
  | u, f :: fs => u = entered f.id + (if f.leaving = .byException then 1 else 0) ∧
      InFlight entered (entered f.id) fs

/-- The invariant of a run. -/
structure Inv (s : Scopes) : Prop where
  frames : ∀ f ∈ s.frames, f.id < s.next
  inFlight : InFlight s.entered s.uncaught s.frames
  owners : Owners s.origin s.next s.object s.owned (s.log.filterMap Destruction.called)
  right : ∀ d ∈ s.log, d.Right

section Steps
variable {s t : Scopes} {f : Frame} {fs : List Frame} {x y id u : ℕ} {entered : ℕ → ℕ}

theorem InFlight.update {n : ℕ} (h : InFlight entered u fs) (hn : ∀ f ∈ fs, f.id < n) (v : ℕ) :
    InFlight (Function.update entered n v) u fs := by
  induction fs generalizing u with
  | nil => exact h
  | cons f fs ih =>
    have hne : f.id ≠ n := Nat.ne_of_lt (hn f List.mem_cons_self)
    unfold InFlight at h ⊢
    rw [Function.update_of_ne hne]
    exact ⟨h.1, ih h.2 fun g hg => hn g (List.mem_cons_of_mem f hg)⟩

theorem Inv.start : Inv .start where
  frames := nofun
  inFlight := rfl
  owners := by
    refine ⟨fun _ _ => rfl, fun _ _ h => ?_, fun _ _ => rfl, fun _ _ _ h => ?_, fun _ _ h => ?_,
      nofun, List.nodup_nil⟩
    · cases h
    · cases h
    · cases h
  right := nofun

/-- The steps that only change the stack of scopes. -/
theorem Inv.stack (hI : Inv s) {fs : List Frame} (hfs : ∀ f ∈ fs, f.id < s.next)
    (hu : InFlight s.entered u fs) : Inv { s with frames := fs, uncaught := u } where
  frames := hfs
  inFlight := hu
  owners := hI.owners
  right := hI.right

theorem Inv.enter (hI : Inv s) :
    Inv { s with
      frames := ⟨s.next, .inside⟩ :: s.frames
      entered := Function.update s.entered s.next s.uncaught
      next := s.next + 1 } where
  frames f hf := by
    rcases List.mem_cons.mp hf with rfl | hf
    · exact Nat.lt_succ_self s.next
    · exact Nat.lt_succ_of_lt (hI.frames f hf)
  inFlight := by
    have hrest := hI.inFlight.update hI.frames s.uncaught
    unfold InFlight
    simp only [Function.update_self]
    exact ⟨rfl, hrest⟩
  owners := hI.owners.mono (Nat.le_succ s.next)
  right := hI.right

/-- What is owned changes in a way that `Owners` allows. -/
theorem Inv.put (hI : Inv s) {g : Guard} {o : Option ℕ} {origin : ℕ → Kind}
    (hO : Owners origin (s.next + 1) (Function.update s.object s.next (some g))
      (Function.update s.owned s.next o) (s.log.filterMap Destruction.called)) (id : ℕ) :
    Inv { s.put id g o with origin := origin } where
  frames f hf := Nat.lt_succ_of_lt (hI.frames f hf)
  inFlight := hI.inFlight
  owners := hO
  right := hI.right

theorem Inv.create (hI : Inv s) (k : Kind) (id : ℕ) :
    Inv { s.put id (k.create s.next s.uncaught) (some s.next) with
      origin := Function.update s.origin s.next k } :=
  hI.put (hI.owners.create (Guard.owns_create (Function.update_self _ _ _))) id

theorem Inv.moveConstruct (hI : Inv s) {g : Guard} (hx : s.object x = some g) (id : ℕ) :
    Inv ((s.put id g.moveConstruct.1 (s.owned x)).set x (some g.moveConstruct.2) none) where
  frames f hf := Nat.lt_succ_of_lt (hI.frames f hf)
  inFlight := hI.inFlight
  owners := by
    have hlt := hI.owners.lt hx
    obtain ⟨hnew, hold⟩ := (hI.owners.owns x g hx).moveConstruct
    exact (hI.owners.mono (Nat.le_succ s.next)).move (by omega) (Nat.lt_succ_self s.next)
      hnew hold
  right := hI.right

theorem Inv.set (hI : Inv s) {g : Option Guard} {o : Option ℕ}
    (hO : Owners s.origin s.next (Function.update s.object x g) (Function.update s.owned x o)
      (s.log.filterMap Destruction.called)) : Inv (s.set x g o) where
  frames := hI.frames
  inFlight := hI.inFlight
  owners := hO
  right := hI.right

theorem Scopes.set_self {g : Option Guard} (hx : s.object x = g) : s.set x g (s.owned x) = s := by
  subst hx
  unfold Scopes.set
  rw [Function.update_eq_self, Function.update_eq_self]

theorem Inv.moveAssign (hI : Inv s) (hok : Served s (.moveAssign y x))
    (hn : next s (.moveAssign y x) = some t) : Inv t := by
  simp only [next] at hn
  split at hn
  · next g h hy hx =>
    obtain ⟨gs, hgs, rfl⟩ := Option.map_eq_some_iff.mp hn
    by_cases hyx : y = x
    · subst hyx
      rw [beq_self_eq_true] at hgs
      obtain rfl : g = h := Option.some.inj (hy.symm.trans hx)
      rw [if_pos rfl, Guard.moveAssign_self hgs, Scopes.set_self hy]
      exact hI
    · have hbeq : (y == x) = false := beq_eq_false_iff_ne.mpr hyx
      rw [hbeq] at hgs
      rw [if_neg hyx]
      by_cases hplain : ∃ p, h = .plain p
      · obtain ⟨p, rfl⟩ := hplain
        obtain ⟨hy0, hx0⟩ := hok hyx p hx
        rw [Guard.moveAssign_plain hgs]
        have hfirst : s.set y (some g) (s.owned x) = s := by
          rw [hx0, ← hy0]
          exact Scopes.set_self hy
        have hsecond : s.set x (some (.plain p)) none = s := by
          rw [← hx0]
          exact Scopes.set_self hx
        rw [hfirst, hsecond]
        exact hI
      · obtain ⟨hnew, hold⟩ :=
          (hI.owners.owns x h hx).moveAssign hgs fun p hp => hplain ⟨p, hp⟩
        exact ⟨hI.frames, hI.inFlight,
          hI.owners.move (hI.owners.lt hx) (hI.owners.lt hy) hnew hold, hI.right⟩
  · cases hn

theorem Inv.cancel (hI : Inv s) {g : Guard} (hx : s.object x = some g) :
    Inv (s.set x (some g.cancel) none) := by
  refine hI.set (hI.owners.drop (hI.owners.lt hx) fun h hh => ?_)
  cases hh
  exact Guard.owns_cancel g s.origin

/-- What holds of the innermost scope and of the others. -/
theorem Inv.top (hI : Inv s) (hfs : s.frames = f :: fs) :
    f.id < s.next ∧ (∀ g ∈ fs, g.id < s.next) ∧
      s.uncaught = s.entered f.id + (if f.leaving = .byException then 1 else 0) ∧
        InFlight s.entered (s.entered f.id) fs := by
  have hframes := hI.frames
  have hflight := hI.inFlight
  rw [hfs] at hframes hflight
  obtain ⟨hid, hrest⟩ := List.forall_mem_cons.mp hframes
  exact ⟨hid, hrest, hflight.1, hflight.2⟩

theorem Inv.destroy (hI : Inv s) {g : Guard} (hfs : s.frames = f :: fs) (hx : s.object x = some g)
    (hok : Served s (.destroy x)) :
    Inv ((s.record x (f.leaving = .byException) (g.destroy s.uncaught)).set x none none) := by
  have huncaught : s.uncaught =
      s.entered f.id + if decide (f.leaving = .byException) = true then 1 else 0 := by
    simpa only [decide_eq_true_eq] using (hI.top hfs).2.2.1
  have hcalled : g.destroy s.uncaught = (s.owned x).bind fun c =>
      if (s.origin c).due (f.leaving = .byException) then some c else none := by
    rw [huncaught]
    refine (hI.owners.owns x g hx).destroy fun CoF c n hg ho => ?_
    exact hok f (by rw [hfs]; rfl) CoF c n (hg ▸ hx) ho
  refine ⟨hI.frames, hI.inFlight, ?_, ?_⟩
  · unfold Scopes.set Scopes.record
    simp only [List.filterMap_cons]
    have hdrop := hI.owners.drop (hI.owners.lt hx) (g := none) (by intro h hh; cases hh)
    cases ho : s.owned x with
    | none =>
      rw [hcalled, ho]
      exact hdrop
    | some c =>
      rw [hcalled, ho, Option.bind_some]
      split_ifs
      · exact hI.owners.call hx ho
      · exact hdrop
  · intro d hd
    rcases List.mem_cons.mp hd with rfl | hd
    · unfold Destruction.Right
      simp only [hcalled, Option.bind_map]
      rfl
    · exact hI.right d hd

theorem Inv.step {a : Act} (hI : Inv s) (hok : Served s a) (hn : next s a = some t) : Inv t := by
  cases a with
  | enter =>
    cases hn
    exact hI.enter
  | create k =>
    simp only [next] at hn
    split at hn
    · cases hn
      exact hI.create k _
    · cases hn
  | moveConstruct x id =>
    simp only [next] at hn
    split at hn
    · obtain ⟨g, hg, rfl⟩ := Option.map_eq_some_iff.mp hn
      exact hI.moveConstruct hg id
    · cases hn
  | moveAssign y x => exact hI.moveAssign hok hn
  | cancel x =>
    obtain ⟨g, hg, rfl⟩ := Option.map_eq_some_iff.mp hn
    exact hI.cancel hg
  | leave =>
    simp only [next] at hn
    split at hn
    · next id fs hfs =>
      cases hn
      obtain ⟨hid, hrest, hu, hflight⟩ := hI.top hfs
      exact hI.stack (List.forall_mem_cons.mpr ⟨hid, hrest⟩) ⟨hu, hflight⟩
    · cases hn
  | throw =>
    simp only [next] at hn
    split at hn
    · next id fs hfs =>
      cases hn
      obtain ⟨hid, hrest, hu, hflight⟩ := hI.top hfs
      exact hI.stack (List.forall_mem_cons.mpr ⟨hid, hrest⟩) ⟨congrArg (· + 1) hu, hflight⟩
    · cases hn
  | destroy x =>
    simp only [next] at hn
    split at hn
    · next f fs g hfs hx =>
      split at hn
      · cases hn
        exact hI.destroy hfs hx hok
      · cases hn
    · cases hn
  | finish =>
    simp only [next] at hn
    split at hn
    · next id fs hfs =>
      split at hn
      · cases hn
        obtain ⟨-, hrest, hu, hflight⟩ := hI.top hfs
        have hu' : s.uncaught = s.entered id := hu
        exact hI.stack hrest (hu' ▸ hflight)
      · cases hn
    · cases hn
  | handle =>
    simp only [next] at hn
    split at hn
    · next id fs hfs =>
      split at hn
      · cases hn
        obtain ⟨-, hrest, hu, hflight⟩ := hI.top hfs
        have hu' : s.uncaught - 1 = s.entered id := by
          rw [hu]
          rfl
        exact hI.stack hrest (hu' ▸ hflight)
      · cases hn
    · cases hn
  | propagate =>
    simp only [next] at hn
    split at hn
    · next id id' fs hfs =>
      split at hn
      · cases hn
        obtain ⟨-, hrest, hu, hinner, hflight⟩ := hI.top hfs
        have hu' : s.uncaught = s.entered id' + 1 := hu.trans (congrArg (· + 1) hinner)
        obtain ⟨hid, hrest⟩ := List.forall_mem_cons.mp hrest
        exact hI.stack (List.forall_mem_cons.mpr ⟨hid, hrest⟩) ⟨hu', hflight⟩
      · cases hn
    · cases hn

end Steps

theorem invariant : system.Inductive Served Inv where
  init _ h := h ▸ Inv.start
  step _ _ _ hI hok hn := hI.step hok hn

theorem guards_once {s : Scopes} (h : system.ReachableBy Served s) : Once s :=
  have hI := invariant.holds h
  ⟨hI.right, hI.owners.nodup⟩

/-- A guard from `onScopeFailure` whose scope is left by an exception. -/
theorem guards_once_failure :
    ∃ s, system.run .start [.enter, .create .failure, .throw, .destroy 1] = some s ∧
      s.log.map Destruction.called = [some 1] ∧ Once s := by
  refine ⟨_, rfl, rfl, guards_once (.step (.step (.step (.step (.init rfl)
    (a := .enter) trivial rfl) (a := .create .failure) trivial rfl) (a := .throw) trivial rfl)
    (a := .destroy 1) ?_ rfl)⟩
  intro f hf CoF g c hx ho
  cases hf
  cases hx
  cases ho
  exact Nat.le_refl 0

/-- A guard from `onScopeSuccess` does not call its function when its scope is left normally. -/
theorem guards_not_once : ¬ ∀ s, system.Reachable s → Once s := by
  intro h
  have hrun : (system.run .start [.enter, .create .success, .leave, .destroy 1]).map
      (fun s => s.log.any fun d => decide (¬ d.Right)) = some true := by decide
  obtain ⟨s, hs, hp⟩ := system.exists_reachable_of_run _ _ rfl hrun
  obtain ⟨d, hd, hwrong⟩ := List.any_eq_true.mp hp
  exact of_decide_eq_true hwrong ((h s hs).right d hd)

end Suil.Async.Guards
