import Suil.Async.Mutex
import Mathlib.Data.List.Pairwise

/-! `AsyncMutexLock` and `scopedLockAsync`: locks that are given back by the destructor of an
object, which may have moved on to another scope, on any number of mutexes. -/
namespace Suil.Async.ScopedLock
open Transition

/-- An `AsyncMutexLock` whose `_mutex` is set, and the lock_operation that it comes from. -/
structure Lock where
  object : ℕ
  mutex : ℕ
  op : ℕ
  deriving DecidableEq

structure State where
  mutexes : ℕ → Mutex.State
  locks : List Lock

def State.setMutex (s : State) (m : ℕ) (M : Mutex.State) : State :=
  { s with mutexes := Function.update s.mutexes m M }

/-- `mutex` is a step within `await_suspend` or `unlock`, and `move` the move constructor. -/
inductive Act
  | mutex (m : ℕ) (a : Mutex.Act)
  | awaitResume (m op object : ℕ)
  | move (object target : ℕ)
  | destroy (object : ℕ)

/-- Not a call of `tryLock` or `unlock`: the lock is taken with `scopedLockAsync` only. -/
def within : Mutex.Act → Bool
  | .tryLock _ | .unlock _ => false
  | _ => true

/-- No object of that address has its `_mutex` set. -/
def State.free (s : State) (object : ℕ) : Bool := s.locks.all (·.object ≠ object)

/-- `await_resume` runs once for each lock_operation that has become the holder. -/
def next (s : State) : Act → Option State
  | .mutex m a => if within a then (Mutex.next (s.mutexes m) a).map (s.setMutex m) else none
  | .awaitResume m op object =>
    if (s.mutexes m).pc op = .holding ∧ s.free object ∧
        s.locks.all fun l => l.mutex ≠ m || l.op ≠ op then
      some { s with locks := ⟨object, m, op⟩ :: s.locks }
    else none
  | .move object target =>
    if s.free target then
      some { s with locks := s.locks.map fun l =>
        if l.object = object then { l with object := target } else l }
    else none
  | .destroy object =>
    match s.locks.find? (·.object = object) with
    | none => some s
    | some l =>
      (Mutex.next (s.mutexes l.mutex) (.unlock l.op)).map fun M =>
        { s.setMutex l.mutex M with locks := s.locks.filter (·.object ≠ object) }

def system : System State Act where
  init s := (∀ m, s.mutexes m = .start) ∧ s.locks = []
  next := next

section Holding
variable {M M' : Mutex.State} {c op : ℕ} {a : Mutex.Act}

theorem unlockStep_holding {st : Mutex.UnlockStage} (hne : op ≠ c) (hc : M.pc op = .holding) :
    (Mutex.unlockStep M c st).pc op = .holding := by
  cases st with
  | check | release =>
    rw [Mutex.unlockStep]
    split_ifs <;> rw [Mutex.goto_pc, if_neg hne] <;> exact hc
  | exchange =>
    rw [Mutex.unlockStep]
    split <;> rw [Mutex.goto_pc, if_neg hne] <;> exact hc
  | reverse header next =>
    rw [Mutex.unlockStep, Mutex.goto_pc, if_neg hne]
    exact hc
  | pop header =>
    cases header with
    | none => rw [Mutex.unlockStep, Mutex.goto_pc, if_neg hne]; exact hc
    | some next => rw [Mutex.unlockStep, Mutex.goto_pc, if_neg hne]; exact hc
  | resume next =>
    rw [Mutex.unlockStep, Mutex.goto_pc]
    split_ifs
    · rfl
    · rw [Mutex.goto_pc, if_neg hne]
      exact hc

/-- A holder stays one until it calls `unlock`. -/
theorem holding_stays (hn : Mutex.next M a = some M') (ha : a ≠ .unlock c)
    (hc : M.pc c = .holding) : M'.pc c = .holding := by
  have hother (d : ℕ) (hd : M.pc d ≠ .holding) : c ≠ d := by
    rintro rfl
    exact hd hc
  cases Mutex.step_of_next hn with
  | tryWin hpc => rw [Mutex.goto_pc, if_neg (hother _ (by rw [hpc]; nofun))]; exact hc
  | tryLose => exact hc
  | lockAsync hpc => rw [Mutex.goto_pc, if_neg (hother _ (by rw [hpc]; nofun))]; exact hc
  | load hpc => rw [Mutex.goto_pc, if_neg (hother _ (by rw [hpc]; nofun))]; exact hc
  | @cas d spurious oldState hpc =>
    have hne := hother d (by rw [hpc]; nofun)
    unfold Mutex.lockCas
    split
    · split_ifs
      · rw [Mutex.goto_pc, if_neg hne]
        exact hc
      · rw [Mutex.goto_pc, if_neg hne]
        exact hc
    · simp only []
      split_ifs
      · rw [Mutex.goto_pc, if_neg hne]
        exact hc
      · rw [Mutex.goto_pc, if_neg hne]
        exact hc
  | @unlock d hpc =>
    have hne : c ≠ d := by
      rintro rfl
      exact ha rfl
    rw [Mutex.goto_pc, if_neg hne]
    exact hc
  | @step d st hpc =>
    exact unlockStep_holding (hother d (by rw [hpc]; nofun)) hc

end Holding

/-- Each object is a lock on a mutex that its lock_operation holds, and there is one for each
that has been resumed. -/
structure Inv (s : State) : Prop where
  mutex : ∀ m, ∃ stack f, Mutex.Inv (s.mutexes m) stack f
  holds : ∀ l ∈ s.locks, (s.mutexes l.mutex).pc l.op = .holding
  objects : s.locks.Pairwise fun l l' => l.object ≠ l'.object
  once : s.locks.Pairwise fun l l' => l.mutex = l'.mutex → l.op ≠ l'.op

section Steps
variable {s s' : State} {m object : ℕ} {M : Mutex.State} {a : Act} {l l' : Lock}

theorem setMutex_mutexes {k : ℕ} :
    (s.setMutex m M).mutexes k = if k = m then M else s.mutexes k := by
  simp [State.setMutex, Function.update_apply]

theorem free_iff : s.free object = true ↔ ∀ l ∈ s.locks, l.object ≠ object := by
  simp [State.free]

/-- The locks on a mutex are all the same one. -/
theorem Inv.unique (h : Inv s) (hl : l ∈ s.locks) (hl' : l' ∈ s.locks) (hm : l.mutex = l'.mutex) :
    l = l' := by
  obtain ⟨stack, f, hinv⟩ := h.mutex l.mutex
  have hholds := h.holds l hl
  have hholds' := h.holds l' hl'
  rw [← hm] at hholds'
  have hop : l.op = l'.op := by
    cases hinv.owner with
    | inl hfree =>
      have hnone := hfree.2.2.2 l.op
      rw [hholds] at hnone
      exact absurd trivial hnone
    | inr howner =>
      obtain ⟨-, o, ho, -⟩ := howner
      have hlo := (ho l.op).mp (by rw [hholds]; trivial)
      have hlo' := (ho l'.op).mp (by rw [hholds']; trivial)
      exact hlo.trans hlo'.symm
  by_contra hne
  have hsymm : Std.Symm fun l l' : Lock => l.mutex = l'.mutex → l.op ≠ l'.op :=
    ⟨fun _ _ hr hm => (hr hm.symm).symm⟩
  exact h.once.forall hl hl' hne hm hop

theorem mutex_setMutex (h : Inv s) {b : Mutex.Act} (hn : Mutex.next (s.mutexes m) b = some M)
    (k : ℕ) : ∃ stack f, Mutex.Inv ((s.setMutex m M).mutexes k) stack f := by
  rw [setMutex_mutexes]
  split_ifs
  · obtain ⟨stack, f, hinv⟩ := h.mutex m
    exact hinv.step hn
  · exact h.mutex k

/-- The lock path of others and their `unlock` leave the holders alone. -/
theorem Inv.setMutex (h : Inv s) {b : Mutex.Act} (hn : Mutex.next (s.mutexes m) b = some M)
    (hb : ∀ c, b ≠ .unlock c) : Inv (s.setMutex m M) where
  mutex := mutex_setMutex h hn
  holds l hl := by
    have hholds := h.holds l hl
    rw [setMutex_mutexes]
    split_ifs with hm
    · rw [hm] at hholds
      exact holding_stays hn (hb l.op) hholds
    · exact hholds
  objects := h.objects
  once := h.once

theorem Inv.awaitResume {op : ℕ} (h : Inv s) (hop : (s.mutexes m).pc op = .holding)
    (hfree : s.free object = true)
    (honce : (s.locks.all fun l => l.mutex ≠ m || l.op ≠ op) = true) :
    Inv { s with locks := ⟨object, m, op⟩ :: s.locks } where
  mutex := h.mutex
  holds := List.forall_mem_cons.mpr ⟨hop, h.holds⟩
  objects := List.pairwise_cons.mpr ⟨fun l hl => (free_iff.mp hfree l hl).symm, h.objects⟩
  once := List.pairwise_cons.mpr ⟨fun l hl hm heq => by
    have hl := List.all_eq_true.mp honce l hl
    simp only [← hm, ← heq] at hl
    simp at hl, h.once⟩

theorem Inv.move {target : ℕ} (h : Inv s) (hfree : s.free target = true) :
    Inv { s with locks := s.locks.map fun l =>
      if l.object = object then { l with object := target } else l } where
  mutex := h.mutex
  holds l hl := by
    obtain ⟨l', hl', rfl⟩ := List.mem_map.mp hl
    have hholds := h.holds l' hl'
    split_ifs
    · exact hholds
    · exact hholds
  objects := by
    refine List.pairwise_map.mpr (h.objects.imp_of_mem fun {l l'} hl hl' hne => ?_)
    have hl := free_iff.mp hfree l hl
    have hl' := free_iff.mp hfree l' hl'
    split_ifs with hfrom hfrom' hfrom'
    · exact absurd (hfrom.trans hfrom'.symm) hne
    · exact hl'.symm
    · exact hl
    · exact hne
  once := by
    refine List.pairwise_map.mpr (h.once.imp fun {l l'} hr => ?_)
    split_ifs <;> exact hr

theorem Inv.destroy (h : Inv s) (hl : l ∈ s.locks)
    (hn : Mutex.next (s.mutexes l.mutex) (.unlock l.op) = some M) :
    Inv { s.setMutex l.mutex M with locks := s.locks.filter (·.object ≠ l.object) } where
  mutex := mutex_setMutex h hn
  holds l' hl' := by
    obtain ⟨hmem, hne⟩ := List.mem_filter.mp hl'
    have hother : l'.mutex ≠ l.mutex := fun hm => by
      rw [h.unique hmem hl hm] at hne
      simp at hne
    change ((s.setMutex l.mutex M).mutexes l'.mutex).pc l'.op = .holding
    rw [setMutex_mutexes, if_neg hother]
    exact h.holds l' hmem
  objects := h.objects.filter _
  once := h.once.filter _

theorem find_spec (hfind : s.locks.find? (·.object = object) = some l) :
    l ∈ s.locks ∧ l.object = object :=
  ⟨List.mem_of_find?_eq_some hfind, by simpa using List.find?_some hfind⟩

theorem Inv.step (h : Inv s) (hn : next s a = some s') : Inv s' := by
  cases a with
  | mutex m b =>
    simp only [next, Option.ite_none_right_eq_some, Option.map_eq_some_iff] at hn
    obtain ⟨hb, M, hM, rfl⟩ := hn
    refine h.setMutex hM ?_
    rintro c rfl
    cases hb
  | awaitResume m op object =>
    simp only [next, Option.ite_none_right_eq_some, Option.some.injEq] at hn
    obtain ⟨⟨hop, hfree, honce⟩, rfl⟩ := hn
    exact h.awaitResume hop hfree honce
  | move object target =>
    simp only [next, Option.ite_none_right_eq_some, Option.some.injEq] at hn
    obtain ⟨hfree, rfl⟩ := hn
    exact h.move hfree
  | destroy object =>
    simp only [next] at hn
    split at hn
    · cases hn
      exact h
    · next l hfind =>
      obtain ⟨M, hM, rfl⟩ := Option.map_eq_some_iff.mp hn
      obtain ⟨hl, rfl⟩ := find_spec hfind
      exact h.destroy hl hM

theorem inv_inductive : system.Inductive (fun _ _ => True) Inv where
  init := by
    rintro s ⟨hstart, hnone⟩
    refine ⟨fun m => ?_, fun l hl => ?_, ?_, ?_⟩
    · rw [hstart]
      exact Mutex.inv_inductive.init _ rfl
    · rw [hnone] at hl
      cases hl
    · rw [hnone]
      exact List.Pairwise.nil
    · rw [hnone]
      exact List.Pairwise.nil
  step _ _ _ h _ hn := h.step hn

/-- A destructor can always give its lock back: it is the one lock on its mutex. -/
theorem Inv.destroys (h : Inv s) (object : ℕ) : ∃ s', next s (.destroy object) = some s' := by
  simp only [next]
  split
  · exact ⟨s, rfl⟩
  · next l hfind =>
    rw [Mutex.next, if_pos (h.holds l (find_spec hfind).1)]
    exact ⟨_, rfl⟩

/-- With nobody about, the mutex is as its destructor wants it. -/
theorem at_rest (h : ∃ stack f, Mutex.Inv M stack f) (hout : ∀ c, M.pc c = .out) :
    M.state = .notLocked ∧ M.waiters = none := by
  obtain ⟨stack, f, hinv⟩ := h
  cases hinv.owner with
  | inl hfree => exact ⟨hfree.1, hfree.2.1⟩
  | inr howner =>
    obtain ⟨-, o, ho, -⟩ := howner
    have howns := (ho o).mpr rfl
    rw [hout] at howns
    exact absurd howns id

/-- Where locks are taken with `scopedLockAsync` only, and whatever becomes of the objects: no two
of them lock one mutex, each can be destroyed as the holder's, no assertion of `unlock` fails, and
a mutex that nobody uses passes the assertions of its destructor. -/
theorem scoped_locks_safe (hs : system.Reachable s) :
    (∀ l ∈ s.locks, ∀ l' ∈ s.locks, l.mutex = l'.mutex → l = l') ∧
    (∀ l ∈ s.locks, (s.mutexes l.mutex).pc l.op = .holding) ∧
    (∀ object, ∃ s', next s (.destroy object) = some s') ∧
    (∀ m c, (s.mutexes m).pc c ≠ .aborted) ∧
    ∀ m, (∀ c, (s.mutexes m).pc c = .out) →
      (s.mutexes m).state = .notLocked ∧ (s.mutexes m).waiters = none := by
  have h := inv_inductive.holds hs
  refine ⟨fun l hl l' hl' hm => h.unique hl hl' hm, h.holds, h.destroys, fun m c => ?_,
    fun m => at_rest (h.mutex m)⟩
  obtain ⟨stack, f, hinv⟩ := h.mutex m
  exact hinv.fine c

end Steps

/-- A lock that was moved from one object to another. -/
theorem scoped_locks_safe_moved : ∃ s, system.Reachable s ∧ s.locks = [⟨11, 0, 1⟩] ∧
    (∀ l ∈ s.locks, ∀ l' ∈ s.locks, l.mutex = l'.mutex → l = l') ∧
    (∀ l ∈ s.locks, (s.mutexes l.mutex).pc l.op = .holding) ∧
    (∀ object, ∃ s', next s (.destroy object) = some s') ∧
    (∀ m c, (s.mutexes m).pc c ≠ .aborted) ∧
    ∀ m, (∀ c, (s.mutexes m).pc c = .out) →
      (s.mutexes m).state = .notLocked ∧ (s.mutexes m).waiters = none := by
  have hinit : system.init ⟨fun _ => .start, []⟩ := ⟨fun _ => rfl, rfl⟩
  obtain ⟨s, hs, hp⟩ := system.exists_reachable_of_run
    [.mutex 0 (.lockAsync 1), .mutex 0 (.load 1), .mutex 0 (.cas 1 false), .awaitResume 0 1 10,
      .move 10 11] (fun s => s.locks = [⟨11, 0, 1⟩]) hinit (by decide)
  exact ⟨s, hs, by simpa using hp, scoped_locks_safe hs⟩

end Suil.Async.ScopedLock
