import Suil.Async.Common
import Suil.Async.Load
import Mathlib.Algebra.BigOperators.Group.Finset.Basic

/-! The scheduler over its threads: `Scheduler::schedule` and `minLoadSchedule` on any number of
callers, a step for each load that is read, while the threads take what they were given. -/
namespace Suil.Async.Dispatch
open Transition Ownership
open Thread (Waiter)
open Load (Item)

/-- `reads` is a ghost: the loads that `minLoadSchedule` has read. -/
inductive Pc
  | out
  | scan (x : Item) (i minLoad tid : ℕ) (reads : List ℕ)
  | assert (x : Item) (tid : ℕ) (reads : List ℕ)
  | call (x : Item) (tid : ℕ) (reads : List ℕ)
  | running (tid : ℕ)
  | count
  deriving DecidableEq

/-- `failed` and `aborts` are ghosts: the calls of `Thread::add` that have returned false, and the
assertions that have failed. -/
structure State where
  threads : ℕ → Load.State
  threadCount : ℕ
  totalScheduled : ℕ
  pc : ℕ → Pc
  failed : ℕ
  aborts : ℕ

def State.goto (s : State) (i : ℕ) (pc : Pc) : State :=
  { s with pc := Function.update s.pc i pc }

def State.setThread (s : State) (t : ℕ) (T : Load.State) : State :=
  { s with threads := Function.update s.threads t T }

/-- The call of `_threads[tid].schedule` or `_threads[tid].add`, with the answer of `epoll_ctl`. -/
def call (i : ℕ) (answer : Bool) : Item → Load.Act
  | .coro c => .schedule i c
  | .waiter w => .add i w answer

/-- What `Thread::add` returns. -/
def accepted (answer : Bool) : Item → Bool
  | .waiter (.event _) => answer
  | _ => true

inductive Act
  | schedule (i : ℕ) (x : Item) (tid : ℕ)
  | step (i : ℕ) (answer : Bool)
  | thread (t : ℕ) (a : Load.Act)

/-- A step that is not a call of `schedule` or `add`. -/
def inner : Load.Act → Bool
  | .schedule _ _ | .add _ _ _ => false
  | _ => true

/-- The loop of `minLoadSchedule` when it has read a load. -/
def scanned (x : Item) (k minLoad tid : ℕ) (reads : List ℕ) (load : ℕ) : Pc :=
  if load = 0 then .assert x k (reads ++ [load])
  else if load < minLoad then .scan x (k + 1) load k (reads ++ [load])
  else .scan x (k + 1) minLoad tid (reads ++ [load])

def runCaller (s : State) (i : ℕ) (answer : Bool) : Option State :=
  match s.pc i with
  | .out => none
  | .scan x k minLoad tid reads =>
    if k < s.threadCount then
      some (s.goto i (scanned x k minLoad tid reads (s.threads k).inflight))
    else some (s.goto i (.assert x tid reads))
  | .assert x tid reads =>
    if tid < s.threadCount then some (s.goto i (.call x tid reads))
    else some { s.goto i .out with aborts := s.aborts + 1 }
  | .call x tid _ =>
    (Load.next (s.threads tid) (call i answer x)).map fun T =>
      { (s.setThread tid T).goto i (.running tid) with
        failed := if accepted answer x then s.failed else s.failed + 1 }
  | .running tid => if (s.threads tid).pc i = .out then some (s.goto i .count) else none
  | .count =>
    some { s.goto i .out with totalScheduled := (s.totalScheduled + 1) % 2 ^ 64 }

def next (s : State) : Act → Option State
  | .schedule i x tid =>
    if s.pc i = .out then
      if tid = THREAD_ID_ANY then some (s.goto i (.scan x 0 (2 ^ 64 - 1) 0 []))
      else some (s.goto i (.assert x tid []))
    else none
  | .step i answer => runCaller s i answer
  | .thread t a =>
    if t < s.threadCount ∧ inner a then (Load.next (s.threads t) a).map (s.setThread t) else none

/-- A scheduler with at least one thread, as `run` leaves it. -/
def system : System State Act where
  init s := 0 < s.threadCount ∧ s.threadCount ≤ 64 ∧ (∀ t, s.threads t = .start) ∧
    s.totalScheduled = 0 ∧ (∀ i, s.pc i = .out) ∧ s.failed = 0 ∧ s.aborts = 0
  next := next

/-- What the threads do keeps to the order that their accounts need. -/
def Ordered (s : State) : Act → Prop
  | .thread t a => Load.Ordered (s.threads t) a
  | .step i _ => s.pc i = .count → s.totalScheduled + 1 < 2 ^ 64
  | _ => True

section Steps
variable {s s' : State} {i j t : ℕ} {pc : Pc} {a : Act} {answer : Bool}

@[simp] theorem goto_pc : (s.goto i pc).pc j = if j = i then pc else s.pc j := by
  simp [State.goto, Function.update_apply]

/-- A caller's step outside of the threads, or the call that it makes of one. -/
theorem runCaller_cases (hn : runCaller s i answer = some s') :
    s'.threads = s.threads ∨
    ∃ x tid reads T, s.pc i = .call x tid reads ∧
      Load.next (s.threads tid) (call i answer x) = some T ∧
      s' = { (s.setThread tid T).goto i (.running tid) with
        failed := if accepted answer x then s.failed else s.failed + 1 } := by
  unfold runCaller at hn
  split at hn
  case h_1 => cases hn
  case h_2 =>
    split_ifs at hn <;> cases hn <;> exact .inl rfl
  case h_3 =>
    split_ifs at hn <;> cases hn <;> exact .inl rfl
  case h_4 x tid reads hpc =>
    obtain ⟨T, hT, rfl⟩ := Option.map_eq_some_iff.mp hn
    exact .inr ⟨x, tid, reads, T, hpc, hT, rfl⟩
  case h_5 =>
    split_ifs at hn
    cases hn
    exact .inl rfl
  case h_6 =>
    cases hn
    exact .inl rfl

/-- Each thread is left alone or takes a step of its own. -/
theorem next_thread (hn : next s a = some s') (t : ℕ) : s'.threads t = s.threads t ∨
    ∃ b, (a = .thread t b ∨ inner b = false) ∧
      Load.system.next (s.threads t) b = some (s'.threads t) := by
  cases a with
  | schedule i x tid =>
    simp only [next] at hn
    split_ifs at hn <;> cases hn <;> exact .inl rfl
  | step i answer =>
    cases runCaller_cases hn with
    | inl heq => exact .inl (congrFun heq t)
    | inr h =>
      obtain ⟨x, tid, reads, T, -, hT, rfl⟩ := h
      by_cases ht : t = tid
      · subst ht
        refine .inr ⟨call i answer x, .inr ?_, ?_⟩
        · cases x <;> rfl
        · exact hT.trans (by simp [State.goto, State.setThread])
      · exact .inl (by simp [State.goto, State.setThread, ht])
  | thread t' b =>
    simp only [next, Option.ite_none_right_eq_some, Option.map_eq_some_iff] at hn
    obtain ⟨-, T, hT, rfl⟩ := hn
    by_cases ht : t = t'
    · subst ht
      exact .inr ⟨b, .inl rfl, hT.trans (by simp [State.setThread])⟩
    · exact .inl (by simp [State.setThread, ht])

theorem ordered_of_not_inner {T : Load.State} {b : Load.Act} (h : inner b = false) :
    Load.Ordered T b := by
  cases b with
  | schedule | add => trivial
  | _ => exact absurd h nofun

theorem thread_reachable (hs : system.ReachableBy Ordered s) (t : ℕ) :
    Load.system.ReachableBy Load.Ordered (s.threads t) := by
  refine System.ReachableBy.part (fun t (s : State) => s.threads t) ?_ ?_ hs t
  · rintro s ⟨-, -, hstart, -⟩ t
    exact hstart t
  · intro s a s' hok hn t
    refine (next_thread hn t).imp_right fun ⟨b, hb, hb'⟩ => ⟨b, ?_, hb'⟩
    cases hb with
    | inl heq =>
      rw [heq] at hok
      exact hok
    | inr hinner => exact ordered_of_not_inner hinner

theorem inflight_lt_step {T T' : Load.State} {b : Load.Act} (h : T.inflight < 2 ^ 64)
    (hn : Load.next T b = some T') : T'.inflight < 2 ^ 64 := by
  have hmod (n : ℕ) : n % 2 ^ 64 < 2 ^ 64 := Nat.mod_lt n (Nat.two_pow_pos 64)
  cases b with
  | schedule i c =>
    simp only [Load.next, Option.ite_none_right_eq_some] at hn
    exact Option.some.inj hn.2 ▸ h
  | add i w answer =>
    simp only [Load.next, Option.ite_none_right_eq_some] at hn
    have hn := hn.2
    split at hn
    · exact Option.some.inj hn ▸ h
    · exact Option.some.inj hn ▸ h
  | publish i =>
    simp only [Load.next] at hn
    split at hn
    · rw [Option.ite_none_right_eq_some] at hn
      exact Option.some.inj hn.2 ▸ h
    · cases hn
  | step i =>
    simp only [Load.next] at hn
    split at hn
    · exact Option.some.inj hn ▸ h
    · exact Option.some.inj hn ▸ hmod _
    · exact Option.some.inj hn ▸ h
    · exact Option.some.inj hn ▸ hmod _
    · cases hn
  | loadInflight i | loadMax i =>
    simp only [Load.next] at hn
    split at hn
    · exact Option.some.inj hn ▸ h
    · cases hn
  | take i n =>
    simp only [Load.next, Option.ite_none_right_eq_some] at hn
    exact Option.some.inj hn.2 ▸ h

end Steps

/-! ### The choice of a thread -/

/-- The thread has the least of the loads that were read. -/
def Least (reads : List ℕ) (tid : ℕ) : Prop :=
  ∃ load, reads[tid]? = some load ∧ ∀ v ∈ reads, load ≤ v

/-- What `minLoadSchedule` holds when it has read the loads of the first threads. -/
structure Scanned (k minLoad tid : ℕ) (reads : List ℕ) : Prop where
  length : reads.length = k
  bound : ∀ v ∈ reads, v < 2 ^ 64
  least : ∀ v ∈ reads, minLoad ≤ v
  holds : reads[tid]? = some minLoad ∨ tid = 0 ∧ minLoad = 2 ^ 64 - 1

/-- All threads were looked at, or one of them had nothing to do. -/
structure Chosen (threadCount tid : ℕ) (reads : List ℕ) : Prop where
  least : Least reads tid
  length : reads.length ≤ threadCount
  complete : reads.length = threadCount ∨ 0 ∈ reads

section Choice
variable {k minLoad tid load threadCount : ℕ} {reads : List ℕ}

theorem Least.lt_length (h : Least reads tid) : tid < reads.length := by
  obtain ⟨load, hload, -⟩ := h
  exact (List.getElem?_eq_some_iff.mp hload).1

theorem Scanned.start : Scanned 0 (2 ^ 64 - 1) 0 [] := ⟨rfl, nofun, nofun, .inr ⟨rfl, rfl⟩⟩

theorem Scanned.idle (h : Scanned k minLoad tid reads) (hk : k < threadCount) :
    Chosen threadCount k (reads ++ [0]) where
  least := ⟨0, by rw [← h.length, List.getElem?_concat_length], fun _ _ => Nat.zero_le _⟩
  length := by rw [List.length_append, h.length]; exact hk
  complete := .inr (List.mem_append_right _ (List.mem_singleton.mpr rfl))

theorem Scanned.lower (h : Scanned k minLoad tid reads) (hload : load < 2 ^ 64)
    (hlt : load < minLoad) : Scanned (k + 1) load k (reads ++ [load]) where
  length := by rw [List.length_append, h.length]; rfl
  bound := List.forall_mem_append.mpr ⟨h.bound, by simpa using hload⟩
  least := List.forall_mem_append.mpr
    ⟨fun v hv => le_trans (le_of_lt hlt) (h.least v hv), by simp⟩
  holds := .inl (by rw [← h.length, List.getElem?_concat_length])

theorem Scanned.higher (h : Scanned k minLoad tid reads) (hload : load < 2 ^ 64)
    (hle : minLoad ≤ load) : Scanned (k + 1) minLoad tid (reads ++ [load]) where
  length := by rw [List.length_append, h.length]; rfl
  bound := List.forall_mem_append.mpr ⟨h.bound, by simpa using hload⟩
  least := List.forall_mem_append.mpr ⟨h.least, by simpa using hle⟩
  holds := h.holds.imp_left fun hget => by
    rw [List.getElem?_append_left (List.getElem?_eq_some_iff.mp hget).1]
    exact hget

/-- At the end of the loop; 0 stands for the first thread if no load is below the largest number. -/
theorem Scanned.chosen (h : Scanned threadCount minLoad tid reads) (hpos : 0 < threadCount) :
    Chosen threadCount tid reads := by
  have hlength := h.length
  refine ⟨?_, le_of_eq hlength, .inl hlength⟩
  cases h.holds with
  | inl hget => exact ⟨minLoad, hget, h.least⟩
  | inr hinit =>
    obtain ⟨rfl, rfl⟩ := hinit
    have hzero : 0 < reads.length := by omega
    have hmem : reads[0] ∈ reads := List.getElem_mem hzero
    have hlt := h.bound _ hmem
    have hle := h.least _ hmem
    refine ⟨reads[0], List.getElem?_eq_getElem hzero, fun v hv => ?_⟩
    have hv' := h.least v hv
    omega

end Choice

/-- Where a caller stands with its choice. An empty list is that of a caller that names a thread. -/
def Placed (s : State) : Pc → Prop
  | .scan _ k minLoad tid reads => Scanned k minLoad tid reads ∧ k ≤ s.threadCount
  | .assert _ tid reads => reads ≠ [] → Chosen s.threadCount tid reads
  | .call _ tid reads => tid < s.threadCount ∧ (reads ≠ [] → Chosen s.threadCount tid reads)
  | .running tid => tid < s.threadCount
  | _ => True

structure Placing (s : State) : Prop where
  pos : 0 < s.threadCount
  inflight : ∀ t, (s.threads t).inflight < 2 ^ 64
  placed : ∀ i, Placed s (s.pc i)

section Placement
variable {s s' : State} {i : ℕ} {pc : Pc} {a : Act}

theorem Placing.goto (h : Placing s) (hpc : Placed s pc) : Placing (s.goto i pc) where
  pos := h.pos
  inflight := h.inflight
  placed j := by
    rw [goto_pc]
    split_ifs
    · exact hpc
    · exact h.placed j

theorem Placing.scanned {x : Item} {k minLoad tid load : ℕ} {reads : List ℕ}
    (h : Scanned k minLoad tid reads) (hk : k < s.threadCount) (hload : load < 2 ^ 64) :
    Placed s (scanned x k minLoad tid reads load) := by
  unfold Dispatch.scanned
  by_cases hzero : load = 0
  · rw [if_pos hzero, hzero]
    exact fun _ => h.idle hk
  · rw [if_neg hzero]
    by_cases hlt : load < minLoad
    · rw [if_pos hlt]
      exact ⟨h.lower hload hlt, hk⟩
    · rw [if_neg hlt]
      exact ⟨h.higher hload (not_lt.mp hlt), hk⟩

theorem Placing.caller {answer : Bool} (h : Placing s)
    (hinflight : ∀ t, (s'.threads t).inflight < 2 ^ 64)
    (hn : runCaller s i answer = some s') : Placing s' := by
  have hpc := h.placed i
  unfold runCaller at hn
  split at hn
  case h_1 => cases hn
  case h_2 x k minLoad tid reads hi =>
    rw [hi] at hpc
    split_ifs at hn with hk
    · cases hn
      exact h.goto (Placing.scanned hpc.1 hk (h.inflight k))
    · cases hn
      have heq : k = s.threadCount := Nat.le_antisymm hpc.2 (not_lt.mp hk)
      exact h.goto fun _ => (heq ▸ hpc.1).chosen h.pos
  case h_3 x tid reads hi =>
    rw [hi] at hpc
    split_ifs at hn with htid
    · cases hn
      exact h.goto ⟨htid, hpc⟩
    · cases hn
      have hout : Placing (s.goto i .out) := h.goto trivial
      exact ⟨h.pos, h.inflight, hout.placed⟩
  case h_4 x tid reads hi =>
    rw [hi] at hpc
    obtain ⟨T, -, rfl⟩ := Option.map_eq_some_iff.mp hn
    refine ⟨h.pos, hinflight, fun j => ?_⟩
    change Placed s (((s.setThread tid T).goto i (.running tid)).pc j)
    rw [goto_pc]
    split_ifs
    · exact hpc.1
    · exact h.placed j
  case h_5 =>
    split_ifs at hn
    cases hn
    exact h.goto trivial
  case h_6 =>
    cases hn
    have hout : Placing (s.goto i .out) := h.goto trivial
    exact ⟨h.pos, h.inflight, hout.placed⟩

theorem Placing.step (h : Placing s) (hn : next s a = some s') : Placing s' := by
  have hinflight (t : ℕ) : (s'.threads t).inflight < 2 ^ 64 := by
    cases next_thread hn t with
    | inl heq => exact heq ▸ h.inflight t
    | inr hstep =>
      obtain ⟨b, -, hb⟩ := hstep
      exact inflight_lt_step (h.inflight t) hb
  cases a with
  | schedule i x tid =>
    simp only [next] at hn
    split_ifs at hn
    · cases hn
      exact h.goto ⟨Scanned.start, Nat.zero_le _⟩
    · cases hn
      exact h.goto (absurd rfl)
  | step i answer => exact h.caller hinflight hn
  | thread t b =>
    simp only [next, Option.ite_none_right_eq_some, Option.map_eq_some_iff] at hn
    obtain ⟨-, T, -, rfl⟩ := hn
    exact ⟨h.pos, hinflight, h.placed⟩

theorem placing_inductive : system.Inductive (fun _ _ => True) Placing where
  init := by
    rintro s ⟨hpos, -, hstart, -, hout, -⟩
    exact ⟨hpos, fun t => hstart t ▸ Nat.two_pow_pos 64, fun i => hout i ▸ trivial⟩
  step _ _ _ h _ hn := h.step hn

/-- A caller that names no thread hands over to one whose load was the least that it read, and it
has read them all unless one was 0; whatever the others do meanwhile, the assertion holds for it. -/
theorem any_thread_is_least (hs : system.Reachable s) (i : ℕ) (x : Item) (tid : ℕ)
    (reads : List ℕ) (hpc : s.pc i = .assert x tid reads ∨ s.pc i = .call x tid reads)
    (hany : reads ≠ []) : tid < s.threadCount ∧ Chosen s.threadCount tid reads := by
  have hplaced := (placing_inductive.holds hs).placed i
  have hchosen : Chosen s.threadCount tid reads := by
    cases hpc with
    | inl hassert =>
      rw [hassert] at hplaced
      exact hplaced hany
    | inr hcall =>
      rw [hcall] at hplaced
      exact hplaced.2 hany
  exact ⟨lt_of_lt_of_le hchosen.least.lt_length hchosen.length, hchosen⟩

end Placement

/-! ### The accounts of all threads -/

/-- The callers of a kind, each once. -/
structure Listed (l : List ℕ) (p : ℕ → Prop) : Prop where
  mem : ∀ i, i ∈ l ↔ p i
  nodup : l.Nodup

namespace Listed
variable {l : List ℕ} {p q : ℕ → Prop} {i : ℕ}

theorem congr (h : Listed l p) (hq : ∀ j, q j ↔ p j) : Listed l q :=
  ⟨fun j => (h.mem j).trans (hq j).symm, h.nodup⟩

theorem insert (h : Listed l p) (hi : ¬p i) (hq : ∀ j, q j ↔ j = i ∨ p j) : Listed (i :: l) q where
  mem j := by rw [List.mem_cons, h.mem, hq]
  nodup := List.nodup_cons.mpr ⟨fun hmem => hi ((h.mem i).mp hmem), h.nodup⟩

theorem erase (h : Listed l p) (hq : ∀ j, q j ↔ j ≠ i ∧ p j) : Listed (l.erase i) q where
  mem j := by rw [h.nodup.mem_erase_iff, h.mem, hq]
  nodup := h.nodup.erase i

theorem length_erase (h : Listed l p) (hi : p i) : (l.erase i).length + 1 = l.length := by
  have hmem := (h.mem i).mpr hi
  have hpos := List.length_pos_of_mem hmem
  rw [List.length_erase_of_mem hmem]
  omega

theorem eq_nil (h : Listed l p) (hp : ∀ j, ¬p j) : l = [] :=
  List.eq_nil_iff_forall_not_mem.mpr fun j hj => hp j ((h.mem j).mp hj)

end Listed

/-- A call of `schedule` or `add` on a thread, and what of it comes before `totalQueued++`. -/
def inside : Load.Pc → Bool
  | .publish _ | .total _ | .count _ | .peak _ _ => true
  | _ => false

def unqueued : Load.Pc → Bool
  | .publish _ | .total _ => true
  | _ => false

section Calls
variable {T T' : Load.State} {i : ℕ} {a : Load.Act}

theorem unqueued_inside {pc : Load.Pc} (h : unqueued pc = true) : inside pc = true := by
  cases pc with
  | publish | total => rfl
  | _ => exact absurd h nofun

/-- The call itself queues nothing. -/
theorem call_cases {answer : Bool} {x : Item} (hn : Load.next T (call i answer x) = some T') :
    T.pc i = .out ∧ T'.totalQueued = T.totalQueued ∧
    T'.pc = Function.update T.pc i (T'.pc i) ∧
    (T'.pc i = .out ∨ inside (T'.pc i) = true) ∧ unqueued (T'.pc i) = accepted answer x := by
  cases x with
  | coro c =>
    simp only [call, Load.next, Option.ite_none_right_eq_some, Option.some.injEq] at hn
    obtain ⟨hout, rfl⟩ := hn
    simp [Load.State.put, Load.State.goto, hout, inside, unqueued, accepted]
  | waiter w =>
    simp only [call, Load.next, Option.ite_none_right_eq_some] at hn
    obtain ⟨⟨hout, -⟩, hn⟩ := hn
    cases w with
    | event e =>
      cases answer with
      | false =>
        cases hn
        simp [hout, unqueued, accepted]
      | true =>
        cases hn
        simp [Load.State.goto, hout, inside, unqueued, accepted]
    | delay d =>
      cases answer <;> cases hn <;>
        simp [Load.State.goto, hout, inside, unqueued, accepted]

/-- Stated for any numbers, since the ones of `decrement` are large. -/
theorem totalQueued_goto (inflight wraps : ℕ) {pc : Load.Pc} :
    ({ T with inflight, wraps }.goto i pc).totalQueued = T.totalQueued := rfl

theorem waiting_goto (inflight wraps : ℕ) {pc : Load.Pc} :
    ({ T with inflight, wraps }.goto i pc).waiting = T.waiting := rfl

theorem pc_decrement : (T.decrement i).pc = Function.update T.pc i .out := by
  simp only [Load.State.decrement, Load.State.goto]

/-- The other steps: one of them queues what a caller has published. -/
theorem inner_cases (hinner : inner a = true) (hn : Load.next T a = some T') :
    ∃ i, T'.pc = Function.update T.pc i (T'.pc i) ∧
      (inside (T'.pc i) = true → inside (T.pc i) = true) ∧
      (T'.totalQueued = T.totalQueued ∧ unqueued (T'.pc i) = unqueued (T.pc i) ∨
        (∃ n, a = .step i ∧ T.pc i = .total n) ∧ unqueued (T.pc i) = true ∧
          unqueued (T'.pc i) = false ∧ T'.totalQueued = (T.totalQueued + 1) % 2 ^ 64) := by
  cases a with
  | schedule | add => exact absurd hinner nofun
  | publish i =>
    simp only [Load.next] at hn
    split at hn
    · next w hi =>
      rw [Option.ite_none_right_eq_some, Option.some.injEq] at hn
      obtain ⟨-, rfl⟩ := hn
      exact ⟨i, by simp [Load.State.put, Load.State.goto, hi, inside, unqueued]⟩
    · cases hn
  | step i =>
    simp only [Load.next] at hn
    split at hn
    · next n hi =>
      obtain rfl := Option.some.inj hn
      have hpc : (T.total i n).pc = Function.update T.pc i (.count n) := by
        simp only [Load.State.total, Load.State.goto]
      have htotal : (T.total i n).totalQueued = (T.totalQueued + 1) % 2 ^ 64 := by
        simp only [Load.State.total, Load.State.goto]
      refine ⟨i, by simp [hpc], by simp [hi, inside], .inr ⟨⟨n, rfl, hi⟩, ?_, ?_, htotal⟩⟩
      · simp [hi, unqueued]
      · simp [hpc, unqueued]
    · next n hi =>
      obtain rfl := Option.some.inj hn
      have hpc : (T.count i n).pc = Function.update T.pc i (.peak none none) := by
        simp only [Load.State.count, Load.State.goto]
      have htotal : (T.count i n).totalQueued = T.totalQueued := by
        simp only [Load.State.count, Load.State.goto]
      exact ⟨i, by simp [hpc], by simp [hi, inside], .inl ⟨htotal, by simp [hpc, hi, unqueued]⟩⟩
    · next x y hi =>
      obtain rfl := Option.some.inj hn
      have hpc : (T.store i x y).pc = Function.update T.pc i .out := by
        simp only [Load.State.store, Load.State.goto]
      have htotal : (T.store i x y).totalQueued = T.totalQueued := by
        simp only [Load.State.store, Load.State.goto]
      exact ⟨i, by simp [hpc], by simp [hi, inside], .inl ⟨htotal, by simp [hpc, hi, unqueued]⟩⟩
    · next n hi =>
      obtain rfl := Option.some.inj hn
      have hpc : (T.decrement i).pc = Function.update T.pc i .out := pc_decrement
      have htotal : (T.decrement i).totalQueued = T.totalQueued := totalQueued_goto _ _
      exact ⟨i, by simp [hpc], by simp [hpc, inside],
        .inl ⟨htotal, by simp [hpc, hi, unqueued]⟩⟩
    · cases hn
  | loadInflight i | loadMax i =>
    simp only [Load.next] at hn
    split at hn
    · next hi =>
      obtain rfl := Option.some.inj hn
      exact ⟨i, by simp [Load.State.goto, hi, inside, unqueued]⟩
    · cases hn
  | take i n =>
    simp only [Load.next, Option.ite_none_right_eq_some, Option.some.injEq] at hn
    obtain ⟨⟨hi, -⟩, rfl⟩ := hn
    exact ⟨i, by simp [Load.State.take, Load.State.goto, hi, inside, unqueued]⟩

end Calls

/-- A caller whose thread has been called and `totalScheduled` not incremented. -/
def Pc.open_ : Pc → Bool
  | .running _ | .count => true
  | _ => false

/-- `totalScheduled` is behind the threads by the callers in between, and before them by those
that have not queued what they publish and those that could not. -/
structure Books (s : State) (opened waiting : List ℕ) : Prop where
  within : ∀ t i, inside ((s.threads t).pc i) = true → s.pc i = .running t
  between : Listed opened fun i => (s.pc i).open_ = true
  behind : Listed waiting fun i => ∃ t, unqueued ((s.threads t).pc i) = true
  count : s.totalScheduled + opened.length =
    ∑ t ∈ Finset.range s.threadCount, (s.threads t).totalQueued + s.failed + waiting.length

section Accounts
variable {s s' : State} {opened waiting : List ℕ} {i t : ℕ} {pc : Pc} {T : Load.State}

theorem setThread_threads {t' : ℕ} :
    (s.setThread t T).threads t' = if t' = t then T else s.threads t' := by
  simp [State.setThread, Function.update_apply]

theorem setThread_pc (hT : T.pc = Function.update (s.threads t).pc i (T.pc i)) (t' j : ℕ) :
    ((s.setThread t T).threads t').pc j =
      if t' = t ∧ j = i then T.pc i else (s.threads t').pc j := by
  rw [setThread_threads]
  by_cases htt : t' = t
  · rw [if_pos htt, hT, Function.update_apply, Function.update_self]
    by_cases hji : j = i
    · rw [if_pos hji, if_pos ⟨htt, hji⟩]
    · rw [if_neg hji, if_neg fun h => hji h.2, htt]
  · rw [if_neg htt, if_neg fun h => htt h.1]

theorem sum_setThread (ht : t < s.threadCount) :
    ∑ t' ∈ Finset.range s.threadCount, ((s.setThread t T).threads t').totalQueued +
      (s.threads t).totalQueued =
    ∑ t' ∈ Finset.range s.threadCount, (s.threads t').totalQueued + T.totalQueued := by
  have hmem := Finset.mem_range.mpr ht
  rw [← Finset.add_sum_erase _ _ hmem,
    ← Finset.add_sum_erase _ (fun t' => (s.threads t').totalQueued) hmem]
  have hothers : ∑ t' ∈ (Finset.range s.threadCount).erase t,
      ((s.setThread t T).threads t').totalQueued =
        ∑ t' ∈ (Finset.range s.threadCount).erase t, (s.threads t').totalQueued :=
    Finset.sum_congr rfl fun t' ht' => by
      rw [setThread_threads, if_neg (Finset.ne_of_mem_erase ht')]
  rw [hothers, setThread_threads, if_pos rfl]
  omega

/-- A caller that is in no thread and stays on its side of the calls. -/
theorem Books.goto (h : Books s opened waiting) (hrun : ∀ t, s.pc i ≠ .running t)
    (hopen : pc.open_ = (s.pc i).open_) : Books (s.goto i pc) opened waiting where
  within t j hj := by
    have hpc := h.within t j hj
    have hne : j ≠ i := by
      rintro rfl
      exact hrun t hpc
    rw [goto_pc, if_neg hne]
    exact hpc
  between := h.between.congr fun j => by
    rw [goto_pc]
    split_ifs with hj
    · rw [hj, hopen]
    · rfl
  behind := h.behind
  count := h.count

/-- The thread has been called. -/
theorem Books.call {x : Item} {reads : List ℕ} {answer : Bool} (h : Books s opened waiting)
    (hi : s.pc i = .call x t reads) (ht : t < s.threadCount)
    (hT : Load.next (s.threads t) (call i answer x) = some T) :
    ∃ waiting', Books { (s.setThread t T).goto i (.running t) with
      failed := if accepted answer x then s.failed else s.failed + 1 } (i :: opened) waiting' := by
  obtain ⟨hout, htotal, hothers, hplace, hqueued⟩ := call_cases hT
  have hnowhere (t' : ℕ) : inside ((s.threads t').pc i) = false := by
    cases hin : inside ((s.threads t').pc i) with
    | false => rfl
    | true => exact absurd (hi.symm.trans (h.within t' i hin)) nofun
  have hunqueued (t' : ℕ) : unqueued ((s.threads t').pc i) = false := by
    cases hun : unqueued ((s.threads t').pc i) with
    | false => rfl
    | true => exact absurd ((hnowhere t').symm.trans (unqueued_inside hun)) nofun
  have hpc := setThread_pc (s := s) (t := t) hothers
  have hsum := sum_setThread (s := s) (T := T) ht
  have hcount := h.count
  have hin (t' j : ℕ) (hj : inside (((s.setThread t T).threads t').pc j) = true) :
      ((s.setThread t T).goto i (.running t)).pc j = .running t' := by
    rw [hpc] at hj
    rw [goto_pc]
    by_cases hji : j = i
    · subst hji
      by_cases htt : t' = t
      · rw [if_pos rfl, htt]
      · rw [if_neg fun h => htt h.1, hnowhere] at hj
        cases hj
    · rw [if_neg fun h => hji h.2] at hj
      rw [if_neg hji]
      exact h.within t' j hj
  have hopened : Listed (i :: opened)
      fun j => (((s.setThread t T).goto i (.running t)).pc j).open_ = true := by
    refine h.between.insert (by rw [hi]; nofun) fun j => ?_
    rw [goto_pc]
    split_ifs with hji
    · simp [hji, Pc.open_]
    · simp [hji, State.setThread]
  cases haccepted : accepted answer x with
  | true =>
    rw [haccepted] at hqueued
    refine ⟨i :: waiting, hin, hopened, ?_, ?_⟩
    · refine h.behind.insert (fun ⟨t', ht'⟩ => absurd ((hunqueued t').symm.trans ht') nofun)
        fun j => ?_
      change (∃ t', unqueued (((s.setThread t T).threads t').pc j) = true) ↔ _
      by_cases hji : j = i
      · subst hji
        exact iff_of_true ⟨t, by rw [hpc, if_pos ⟨rfl, rfl⟩]; exact hqueued⟩ (.inl rfl)
      · simp [hpc, hji]
    · change s.totalScheduled + (i :: opened).length = ∑ t' ∈ Finset.range s.threadCount,
        ((s.setThread t T).threads t').totalQueued + s.failed + (i :: waiting).length
      rw [List.length_cons, List.length_cons]
      omega
  | false =>
    rw [haccepted] at hqueued
    refine ⟨waiting, hin, hopened, ?_, ?_⟩
    · refine h.behind.congr fun j => ?_
      change (∃ t', unqueued (((s.setThread t T).threads t').pc j) = true) ↔ _
      by_cases hji : j = i
      · subst hji
        refine iff_of_false (fun ⟨t', ht'⟩ => ?_)
          fun ⟨t', ht'⟩ => absurd ((hunqueued t').symm.trans ht') nofun
        rw [hpc] at ht'
        split_ifs at ht'
        · exact absurd (hqueued.symm.trans ht') nofun
        · exact absurd ((hunqueued t').symm.trans ht') nofun
      · simp [hpc, hji]
    · change s.totalScheduled + (i :: opened).length = ∑ t' ∈ Finset.range s.threadCount,
        ((s.setThread t T).threads t').totalQueued + (s.failed + 1) + waiting.length
      rw [List.length_cons]
      omega

theorem Books.unqueued_within (h : Books s opened waiting) {t' : ℕ}
    (hun : unqueued ((s.threads t').pc i) = true) : s.pc i = .running t' :=
  h.within t' i (unqueued_inside hun)

/-- What goes on in a thread. -/
theorem Books.thread {a : Load.Act} (h : Books s opened waiting) (ht : t < s.threadCount)
    (hinner : inner a = true) (hok : Load.Ordered (s.threads t) a)
    (hT : Load.next (s.threads t) a = some T) :
    ∃ waiting', Books (s.setThread t T) opened waiting' := by
  obtain ⟨i, hothers, hinside, hqueue⟩ := inner_cases hinner hT
  have hpc := setThread_pc (s := s) (t := t) hothers
  have hsum := sum_setThread (s := s) (T := T) ht
  have hcount := h.count
  have hin (t' j : ℕ) (hj : inside (((s.setThread t T).threads t').pc j) = true) :
      s.pc j = .running t' := by
    rw [hpc] at hj
    split_ifs at hj with hij
    · rw [hij.1, hij.2]
      exact h.within t i (hinside hj)
    · exact h.within t' j hj
  cases hqueue with
  | inl hsame =>
    obtain ⟨htotal, hqueued⟩ := hsame
    refine ⟨waiting, hin, h.between, h.behind.congr fun j => exists_congr fun t' => ?_, ?_⟩
    · rw [hpc]
      split_ifs with hij
      · rw [hqueued, hij.1, hij.2]
      · rfl
    · change s.totalScheduled + opened.length = ∑ t' ∈ Finset.range s.threadCount,
        ((s.setThread t T).threads t').totalQueued + s.failed + waiting.length
      omega
  | inr hcounted =>
    obtain ⟨⟨n, rfl, hi⟩, hbefore, hafter, htotal⟩ := hcounted
    have hrun := h.unqueued_within hbefore
    have hlength := h.behind.length_erase ⟨t, hbefore⟩
    have hfits : (s.threads t).totalQueued + 1 < 2 ^ 64 := hok.2.2 n hi
    rw [Nat.mod_eq_of_lt hfits] at htotal
    refine ⟨waiting.erase i, hin, h.between, h.behind.erase fun j => ?_, ?_⟩
    · by_cases hji : j = i
      · subst hji
        refine iff_of_false (fun ⟨t', ht'⟩ => ?_) fun hne => hne.1 rfl
        rw [hpc] at ht'
        split_ifs at ht' with hij
        · exact absurd (hafter.symm.trans ht') nofun
        · have heq := Pc.running.inj (hrun.symm.trans (h.unqueued_within ht'))
          exact hij ⟨heq.symm, rfl⟩
      · simp [hpc, hji]
    · change s.totalScheduled + opened.length = ∑ t' ∈ Finset.range s.threadCount,
        ((s.setThread t T).threads t').totalQueued + s.failed + (waiting.erase i).length
      omega

/-- The call of the thread has returned. -/
theorem Books.leave (h : Books s opened waiting) (hi : s.pc i = .running t)
    (hout : (s.threads t).pc i = .out) : Books (s.goto i .count) opened waiting where
  within t' j hj := by
    have hpc := h.within t' j hj
    have hne : j ≠ i := by
      rintro rfl
      obtain rfl := Pc.running.inj (hi.symm.trans hpc)
      rw [State.goto, hout] at hj
      cases hj
    rw [goto_pc, if_neg hne]
    exact hpc
  between := h.between.congr fun j => by
    rw [goto_pc]
    split_ifs with hj
    · rw [hj, hi]
      rfl
    · rfl
  behind := h.behind
  count := h.count

theorem Books.counted (h : Books s opened waiting) (hi : s.pc i = .count)
    (hfits : s.totalScheduled + 1 < 2 ^ 64) :
    Books { s.goto i .out with totalScheduled := (s.totalScheduled + 1) % 2 ^ 64 }
      (opened.erase i) waiting where
  within t j hj := by
    have hpc := h.within t j hj
    have hne : j ≠ i := by
      rintro rfl
      exact absurd (hi.symm.trans hpc) nofun
    change (s.goto i .out).pc j = .running t
    rw [goto_pc, if_neg hne]
    exact hpc
  between := h.between.erase fun j => by
    change ((s.goto i .out).pc j).open_ = true ↔ _
    rw [goto_pc]
    split_ifs with hj
    · simp [hj, Pc.open_]
    · simp [hj]
  behind := h.behind
  count := by
    have hlength := h.between.length_erase (i := i) (by rw [hi]; rfl)
    have hcount := h.count
    rw [Nat.mod_eq_of_lt hfits]
    change s.totalScheduled + 1 + (opened.erase i).length = ∑ t ∈ Finset.range s.threadCount,
      (s.threads t).totalQueued + s.failed + waiting.length
    omega

theorem scanned_open {x : Item} {k minLoad tid load : ℕ} {reads : List ℕ} :
    (scanned x k minLoad tid reads load).open_ = false := by
  unfold scanned
  split_ifs <;> rfl

theorem Books.caller {answer : Bool} (h : Books s opened waiting) (hp : Placing s)
    (hok : s.pc i = .count → s.totalScheduled + 1 < 2 ^ 64)
    (hn : runCaller s i answer = some s') : ∃ opened' waiting', Books s' opened' waiting' := by
  unfold runCaller at hn
  split at hn
  case h_1 => cases hn
  case h_2 hi =>
    have hrun (t : ℕ) : s.pc i ≠ .running t := by rw [hi]; nofun
    split_ifs at hn
    · cases hn
      exact ⟨opened, waiting, h.goto hrun (by rw [hi, scanned_open]; rfl)⟩
    · cases hn
      exact ⟨opened, waiting, h.goto hrun (by rw [hi]; rfl)⟩
  case h_3 hi =>
    have hrun (t : ℕ) : s.pc i ≠ .running t := by rw [hi]; nofun
    split_ifs at hn
    · cases hn
      exact ⟨opened, waiting, h.goto hrun (by rw [hi]; rfl)⟩
    · cases hn
      have hout : Books (s.goto i .out) opened waiting := h.goto hrun (by rw [hi]; rfl)
      exact ⟨opened, waiting, hout.within, hout.between, hout.behind, hout.count⟩
  case h_4 x tid reads hi =>
    obtain ⟨T, hT, rfl⟩ := Option.map_eq_some_iff.mp hn
    have hplaced := hp.placed i
    rw [hi] at hplaced
    exact ⟨i :: opened, h.call hi hplaced.1 hT⟩
  case h_5 tid hi =>
    split_ifs at hn with hout
    cases hn
    exact ⟨opened, waiting, h.leave hi hout⟩
  case h_6 hi =>
    cases hn
    exact ⟨opened.erase i, waiting, h.counted hi (hok hi)⟩

theorem Books.step {a : Act} (h : Books s opened waiting) (hp : Placing s) (hok : Ordered s a)
    (hn : next s a = some s') : ∃ opened' waiting', Books s' opened' waiting' := by
  cases a with
  | schedule i x tid =>
    simp only [next, Option.ite_none_right_eq_some] at hn
    obtain ⟨hi, hn⟩ := hn
    have hrun (t : ℕ) : s.pc i ≠ .running t := by rw [hi]; nofun
    split_ifs at hn
    · cases hn
      exact ⟨opened, waiting, h.goto hrun (by rw [hi]; rfl)⟩
    · cases hn
      exact ⟨opened, waiting, h.goto hrun (by rw [hi]; rfl)⟩
  | step i answer => exact h.caller hp hok hn
  | thread t a =>
    simp only [next, Option.ite_none_right_eq_some, Option.map_eq_some_iff] at hn
    obtain ⟨⟨ht, hinner⟩, T, hT, rfl⟩ := hn
    exact ⟨opened, h.thread ht hinner hok hT⟩

theorem books_inductive : system.Inductive Ordered fun s =>
    Placing s ∧ ∃ opened waiting, Books s opened waiting where
  init := by
    intro s h0
    have hp := placing_inductive.init s h0
    obtain ⟨-, -, hstart, htotal, hout, hfailed, -⟩ := h0
    refine ⟨hp, [], [], ?_, ⟨fun i => ?_, List.nodup_nil⟩, ⟨fun i => ?_, List.nodup_nil⟩, ?_⟩
    · intro t i hin
      rw [hstart] at hin
      cases hin
    · rw [hout]
      exact iff_of_false List.not_mem_nil nofun
    · refine iff_of_false List.not_mem_nil fun ⟨t, ht⟩ => ?_
      rw [hstart] at ht
      cases ht
    · simp [htotal, hfailed, hstart, Load.State.start]
  step s a s' h hok hn := by
    obtain ⟨hp, opened, waiting, hb⟩ := h
    exact ⟨hp.step hn, hb.step hp hok hn⟩

theorem thread_exact (hs : system.ReachableBy Ordered s) (t : ℕ) : Load.Exact (s.threads t) := by
  obtain ⟨⟨announced, taken, htokens⟩, hpeaks⟩ :=
    Load.inductive_tokens.holds (thread_reachable hs t)
  exact htokens.exact hpeaks

/-- The accounts of every thread are exact, and when no call is under way those of the scheduler
are their sum with what the threads have refused. -/
theorem accounts_add_up (hs : system.ReachableBy Ordered s) :
    (∀ t, Load.Exact (s.threads t)) ∧ ((∀ i, s.pc i = .out) → s.totalScheduled =
      ∑ t ∈ Finset.range s.threadCount, (s.threads t).totalQueued + s.failed) := by
  refine ⟨thread_exact hs, fun hout => ?_⟩
  obtain ⟨-, opened, waiting, hb⟩ := books_inductive.holds hs
  have hopened : opened = [] := hb.between.eq_nil fun i => by rw [hout]; nofun
  have hwaiting : waiting = [] := hb.behind.eq_nil fun i ⟨t, ht⟩ =>
    absurd ((hout i).symm.trans (hb.unqueued_within ht)) nofun
  have hcount := hb.count
  rw [hopened, hwaiting] at hcount
  simpa using hcount

end Accounts

/-! ### Balance -/

/-- One call at a time, none of which names a thread, and nothing is taken meanwhile. -/
def Serial (s : State) : Act → Prop
  | .schedule _ _ tid => tid = THREAD_ID_ANY ∧ ∀ j, s.pc j = .out
  | .thread t a => Load.Ordered (s.threads t) a ∧ ∀ i n, a ≠ .take i n
  | .step i _ => s.pc i = .count → s.totalScheduled + 1 < 2 ^ 64

theorem Serial.ordered {s : State} {a : Act} (h : Serial s a) : Ordered s a := by
  cases a with
  | schedule => trivial
  | step => exact h
  | thread => exact h.1

/-- How many items are queued or scheduled. -/
def State.load (s : State) (t : ℕ) : ℕ := (s.threads t).waiting.length

/-- The thread that a caller is about to give its item to. -/
def Aims (s : State) (i tid : ℕ) : Prop :=
  (∃ x reads, s.pc i = .assert x tid reads ∨ s.pc i = .call x tid reads) ∨
  ∃ w, (s.threads tid).pc i = .publish w

structure Even (s : State) : Prop where
  spread : ∀ t < s.threadCount, ∀ t' < s.threadCount, s.load t ≤ s.load t' + 1
  alone : ∀ i j, s.pc i ≠ .out → s.pc j ≠ .out → i = j
  within : ∀ t i, (s.threads t).pc i ≠ .out → s.pc i = .running t
  reads : ∀ i x k minLoad tid reads, s.pc i = .scan x k minLoad tid reads →
    reads = (List.range k).map s.load
  aims : ∀ i tid, Aims s i tid → ∀ t < s.threadCount, s.load tid ≤ s.load t

section Loads
variable {T T' : Load.State} {i : ℕ} {a : Load.Act}

theorem call_waiting {answer : Bool} {x : Item} (hn : Load.next T (call i answer x) = some T') :
    T'.waiting.length = T.waiting.length + 1 ∧ (∀ w, T'.pc i ≠ .publish w) ∨
    T'.waiting.length = T.waiting.length := by
  cases x with
  | coro c =>
    simp only [call, Load.next, Option.ite_none_right_eq_some, Option.some.injEq] at hn
    obtain ⟨-, rfl⟩ := hn
    exact .inl ⟨by simp [Load.State.put, Load.State.goto],
      fun w => by simp [Load.State.put, Load.State.goto]⟩
  | waiter w =>
    simp only [call, Load.next, Option.ite_none_right_eq_some] at hn
    obtain ⟨-, hn⟩ := hn
    cases w with
    | event e => cases answer <;> cases hn <;> exact .inr rfl
    | delay d => cases answer <;> cases hn <;> exact .inr rfl

/-- Besides `take`, only `publish` changes what is waiting. -/
theorem inner_waiting (hinner : inner a = true) (htake : ∀ i n, a ≠ .take i n)
    (hn : Load.next T a = some T') : ∃ i, T'.pc = Function.update T.pc i (T'.pc i) ∧
      T.pc i ≠ .out ∧ (∀ w, T'.pc i ≠ .publish w) ∧
      (T'.waiting.length = T.waiting.length ∨
        T'.waiting.length = T.waiting.length + 1 ∧ ∃ w, T.pc i = .publish w) := by
  cases a with
  | schedule | add => exact absurd hinner nofun
  | publish i =>
    simp only [Load.next] at hn
    split at hn
    · next w hi =>
      rw [Option.ite_none_right_eq_some, Option.some.injEq] at hn
      obtain ⟨-, rfl⟩ := hn
      exact ⟨i, by simp [Load.State.put, Load.State.goto, hi]⟩
    · cases hn
  | step i =>
    simp only [Load.next] at hn
    split at hn
    · next n hi =>
      obtain rfl := Option.some.inj hn
      have hpc : (T.total i n).pc = Function.update T.pc i (.count n) := by
        simp only [Load.State.total, Load.State.goto]
      exact ⟨i, by simp [hpc], by simp [hi], by simp [hpc], .inl rfl⟩
    · next n hi =>
      obtain rfl := Option.some.inj hn
      have hpc : (T.count i n).pc = Function.update T.pc i (.peak none none) := by
        simp only [Load.State.count, Load.State.goto]
      have hwaiting : (T.count i n).waiting = T.waiting := by
        simp only [Load.State.count, Load.State.goto]
      exact ⟨i, by simp [hpc], by simp [hi], by simp [hpc], .inl (congrArg _ hwaiting)⟩
    · next x y hi =>
      obtain rfl := Option.some.inj hn
      have hpc : (T.store i x y).pc = Function.update T.pc i .out := by
        simp only [Load.State.store, Load.State.goto]
      exact ⟨i, by simp [hpc], by simp [hi], by simp [hpc], .inl rfl⟩
    · next n hi =>
      obtain rfl := Option.some.inj hn
      have hwaiting : (T.decrement i).waiting = T.waiting := waiting_goto _ _
      exact ⟨i, by simp [pc_decrement], by simp [hi], by simp [pc_decrement],
        .inl (congrArg _ hwaiting)⟩
    · cases hn
  | loadInflight i | loadMax i =>
    simp only [Load.next] at hn
    split at hn
    · next hi =>
      obtain rfl := Option.some.inj hn
      exact ⟨i, by simp [Load.State.goto, hi]⟩
    · cases hn
  | take i n => exact absurd rfl (htake i n)

end Loads

section Balance
variable {s s' : State} {i t : ℕ} {pc : Pc} {T : Load.State}

/-- The caller steps outside of the threads, and what it aims at is no busier than the others. -/
theorem Even.goto (h : Even s) (hrun : ∀ t, s.pc i = .running t → (s.threads t).pc i = .out)
    (halone : ∀ j, s.pc j ≠ .out → j = i)
    (hreads : ∀ x k minLoad tid reads, pc = .scan x k minLoad tid reads →
      reads = (List.range k).map s.load)
    (haims : ∀ x tid reads, pc = .assert x tid reads ∨ pc = .call x tid reads →
      ∀ t < s.threadCount, s.load tid ≤ s.load t) : Even (s.goto i pc) where
  spread := h.spread
  alone j k hj hk := by
    have hout (j : ℕ) (hj : (s.goto i pc).pc j ≠ .out) : j = i := by
      rw [goto_pc] at hj
      split_ifs at hj with hji
      · exact hji
      · exact halone j hj
    rw [hout j hj, hout k hk]
  within t j hj := by
    have hpc := h.within t j hj
    have hne : j ≠ i := by
      rintro rfl
      exact hj (hrun t hpc)
    rw [goto_pc, if_neg hne]
    exact hpc
  reads j x k minLoad tid reads hj := by
    rw [goto_pc] at hj
    split_ifs at hj
    · exact hreads x k minLoad tid reads hj
    · exact h.reads j x k minLoad tid reads hj
  aims j tid hj := by
    cases hj with
    | inl hpc =>
      obtain ⟨x, reads, hpc⟩ := hpc
      rw [goto_pc] at hpc
      split_ifs at hpc
      · exact haims x tid reads hpc
      · exact h.aims j tid (.inl ⟨x, reads, hpc⟩)
    | inr hpublish => exact h.aims j tid (.inr hpublish)

theorem Even.only (h : Even s) (hi : s.pc i ≠ .out) (j : ℕ) (hj : s.pc j ≠ .out) : j = i :=
  h.alone j i hj hi

/-- While a caller looks around, the threads are at rest and their loads are what is waiting. -/
theorem Even.inflight (h : Even s) (hi : s.pc i ≠ .out) (hrun : ∀ t, s.pc i ≠ .running t)
    (hexact : ∀ t, Load.Exact (s.threads t)) (t : ℕ) : (s.threads t).inflight = s.load t := by
  have hquiet (j : ℕ) : (s.threads t).pc j = .out := by
    by_contra hj
    have hpc := h.within t j hj
    have hji : j = i := h.only hi j (by rw [hpc]; nofun)
    exact hrun t (hji ▸ hpc)
  exact ((hexact t).quiet hquiet).trans (Load.countP_kinds _)

theorem load_setThread (t' : ℕ) :
    (s.setThread t T).load t' = if t' = t then T.waiting.length else s.load t' := by
  rw [State.load, setThread_threads]
  split_ifs
  · rfl
  · rfl

/-- One item more on a thread that has no more than the others. -/
theorem Even.spread_setThread (h : Even s)
    (hT : T.waiting.length = s.load t ∨
      T.waiting.length = s.load t + 1 ∧ ∀ t' < s.threadCount, s.load t ≤ s.load t') :
    ∀ a < s.threadCount, ∀ b < s.threadCount,
      (s.setThread t T).load a ≤ (s.setThread t T).load b + 1 := by
  intro a ha b hb
  have hab := h.spread a ha b hb
  rw [load_setThread, load_setThread]
  cases hT with
  | inl hsame =>
    split_ifs with hat hbt hbt
    · omega
    · subst hat
      omega
    · subst hbt
      omega
    · exact hab
  | inr hmore =>
    obtain ⟨hlen, hmin⟩ := hmore
    have hb' := hmin b hb
    split_ifs with hat hbt hbt
    · omega
    · omega
    · subst hbt
      omega
    · exact hab

/-- A call gives its item to the thread that it aims at. -/
theorem Even.call {x : Item} {reads : List ℕ} {answer : Bool} {failed : ℕ} (h : Even s)
    (hi : s.pc i = .call x t reads) (hT : Load.next (s.threads t) (call i answer x) = some T) :
    Even { (s.setThread t T).goto i (.running t) with failed := failed } := by
  obtain ⟨hout, -, hothers, -⟩ := call_cases hT
  have hpc := setThread_pc (s := s) (t := t) hothers
  have hmin := h.aims i t (.inl ⟨x, reads, .inr hi⟩)
  have honly (j : ℕ) (hj : s.pc j ≠ .out) : j = i := h.only (by rw [hi]; nofun) j hj
  have hrest (t' j : ℕ) : (s.threads t').pc j = .out := by
    by_contra hj
    have hrun := h.within t' j hj
    have hji : j = i := honly j (by rw [hrun]; nofun)
    rw [hji, hi] at hrun
    cases hrun
  have hwhere (j : ℕ) (hj : j ≠ i) : ((s.setThread t T).goto i (.running t)).pc j = .out := by
    rw [goto_pc, if_neg hj]
    by_contra hne
    exact hj (honly j hne)
  have hnew (t' j : ℕ) (hne : ((s.setThread t T).threads t').pc j ≠ .out) : t' = t ∧ j = i := by
    rw [hpc] at hne
    by_contra hno
    rw [if_neg hno] at hne
    exact hne (hrest t' j)
  refine ⟨?_, ?_, ?_, ?_, ?_⟩
  · refine h.spread_setThread ?_
    cases call_waiting hT with
    | inl hmore => exact .inr ⟨hmore.1, hmin⟩
    | inr hsame => exact .inl hsame
  · intro j k hj hk
    have hji : j = i := not_not.mp fun hne => hj (hwhere j hne)
    have hki : k = i := not_not.mp fun hne => hk (hwhere k hne)
    rw [hji, hki]
  · intro t' j hj
    obtain ⟨rfl, rfl⟩ := hnew t' j hj
    change ((s.setThread t' T).goto j (.running t')).pc j = .running t'
    rw [goto_pc, if_pos rfl]
  · intro j x k minLoad tid reads hj
    change ((s.setThread t T).goto i (.running t)).pc j = _ at hj
    by_cases hji : j = i
    · rw [goto_pc, if_pos hji] at hj
      cases hj
    · rw [hwhere j hji] at hj
      cases hj
  · intro j tid hj
    cases hj with
    | inl hpc =>
      obtain ⟨x, reads, hpc⟩ := hpc
      change ((s.setThread t T).goto i (.running t)).pc j = _ ∨
        ((s.setThread t T).goto i (.running t)).pc j = _ at hpc
      by_cases hji : j = i
      · rw [goto_pc, if_pos hji] at hpc
        cases hpc <;> contradiction
      · rw [hwhere j hji] at hpc
        cases hpc <;> contradiction
    | inr hpublish =>
      obtain ⟨w, hw⟩ := hpublish
      change ((s.setThread t T).threads tid).pc j = .publish w at hw
      obtain ⟨rfl, rfl⟩ := hnew tid j (by rw [hw]; nofun)
      rw [hpc, if_pos ⟨rfl, rfl⟩] at hw
      intro t' ht'
      change (s.setThread tid T).load tid ≤ (s.setThread tid T).load t'
      rw [load_setThread, load_setThread, if_pos rfl]
      cases call_waiting hT with
      | inl hmore => exact absurd hw (hmore.2 w)
      | inr hsame =>
        split_ifs
        · exact le_refl _
        · exact hsame.trans_le (hmin t' ht')

/-- What goes on in the thread of the caller. -/
theorem Even.thread {a : Load.Act} (h : Even s) (hinner : inner a = true)
    (htake : ∀ i n, a ≠ .take i n) (hT : Load.next (s.threads t) a = some T) :
    Even (s.setThread t T) := by
  obtain ⟨i, hothers, hne, hpublish, hload⟩ := inner_waiting hinner htake hT
  have hpc := setThread_pc (s := s) (t := t) hothers
  have hi := h.within t i hne
  have honly (j : ℕ) (hj : s.pc j ≠ .out) : j = i := h.only (by rw [hi]; nofun) j hj
  refine ⟨?_, h.alone, ?_, ?_, ?_⟩
  · refine h.spread_setThread (hload.imp_right fun ⟨hlen, hw⟩ => ⟨hlen, ?_⟩)
    exact h.aims i t (.inr hw)
  · intro t' j hj
    rw [hpc] at hj
    split_ifs at hj with hij
    · rw [hij.1, hij.2]
      exact hi
    · exact h.within t' j hj
  · intro j x k minLoad tid reads hj
    change s.pc j = _ at hj
    obtain rfl := honly j (by rw [hj]; nofun)
    exact absurd (hi.symm.trans hj) nofun
  · intro j tid hj
    cases hj with
    | inl hpc =>
      obtain ⟨x, reads, hpc⟩ := hpc
      change s.pc j = _ ∨ s.pc j = _ at hpc
      have hji : j = i := honly j (by cases hpc with
        | inl heq | inr heq => rw [heq]; nofun)
      rw [hji, hi] at hpc
      cases hpc <;> contradiction
    | inr hpub =>
      obtain ⟨w, hw⟩ := hpub
      rw [hpc] at hw
      split_ifs at hw with hij
      · exact absurd hw (hpublish w)
      · have hrun := h.within tid j (by rw [hw]; nofun)
        have hji : j = i := honly j (by rw [hrun]; nofun)
        rw [hji, hi] at hrun
        exact absurd ⟨(Pc.running.inj hrun).symm, hji⟩ hij

theorem getElem?_loads {k tid load : ℕ} (h : ((List.range k).map s.load)[tid]? = some load) :
    load = s.load tid := by
  rw [List.getElem?_map, Option.map_eq_some_iff] at h
  obtain ⟨t, ht, rfl⟩ := h
  obtain ⟨hlt, heq⟩ := List.getElem?_eq_some_iff.mp ht
  rw [List.getElem_range] at heq
  rw [heq]

/-- The thread that a caller has chosen among all of them at rest. -/
theorem Least.load_le {tid : ℕ} (h : Least ((List.range s.threadCount).map s.load) tid) :
    ∀ t < s.threadCount, s.load tid ≤ s.load t := by
  obtain ⟨load, hload, hleast⟩ := h
  intro t ht
  rw [← getElem?_loads hload]
  exact hleast _ (List.mem_map_of_mem (List.mem_range.mpr ht))

theorem Even.scanned {x : Item} {k minLoad tid : ℕ} {reads : List ℕ} (h : Even s)
    (hi : s.pc i = .scan x k minLoad tid reads) (hinflight : (s.threads k).inflight = s.load k) :
    Even (s.goto i (scanned x k minLoad tid reads (s.threads k).inflight)) := by
  have hne : s.pc i ≠ .out := by rw [hi]; nofun
  have hreads : reads ++ [s.load k] = (List.range (k + 1)).map s.load := by
    rw [List.range_succ, List.map_append, ← h.reads i x k minLoad tid reads hi]
    rfl
  rw [hinflight, Dispatch.scanned]
  refine h.goto (fun t ht => absurd (hi.symm.trans ht) nofun) (h.only hne) ?_ ?_
  · intro x' k' minLoad' tid' reads' heq
    split_ifs at heq
    · cases heq
      exact hreads
    · cases heq
      exact hreads
  · intro x' tid' reads' heq t ht
    split_ifs at heq with hzero
    · have htid : k = tid' := by
        cases heq with
        | inl heq => exact (Pc.assert.inj heq).2.1
        | inr heq => cases heq
      rw [← htid, hzero]
      exact Nat.zero_le _
    · cases heq <;> contradiction
    · cases heq <;> contradiction

/-- A caller that has looked at the threads at rest aims at one that has no more than the others. -/
theorem Even.caller {answer : Bool} (h : Even s) (hp : Placing s)
    (hexact : ∀ t, Load.Exact (s.threads t)) (hn : runCaller s i answer = some s') : Even s' := by
  have hplaced := hp.placed i
  unfold runCaller at hn
  split at hn
  case h_1 => cases hn
  case h_2 x k minLoad tid reads hi =>
    have hne : s.pc i ≠ .out := by rw [hi]; nofun
    split_ifs at hn with hk
    · cases hn
      exact h.scanned hi (h.inflight hne (fun t ht => absurd (hi.symm.trans ht) nofun) hexact k)
    · cases hn
      rw [hi] at hplaced
      have hcount : k = s.threadCount := Nat.le_antisymm hplaced.2 (not_lt.mp hk)
      have hleast := ((hcount ▸ hplaced.1).chosen hp.pos).least
      rw [h.reads i x k minLoad tid reads hi, hcount] at hleast
      refine h.goto (fun t ht => absurd (hi.symm.trans ht) nofun) (h.only hne) nofun ?_
      intro x' tid' reads' heq
      cases heq with
      | inl heq =>
        obtain ⟨-, rfl, -⟩ := Pc.assert.inj heq
        exact hleast.load_le
      | inr heq => cases heq
  case h_3 x tid reads hi =>
    have hne : s.pc i ≠ .out := by rw [hi]; nofun
    split_ifs at hn
    · cases hn
      refine h.goto (fun t ht => absurd (hi.symm.trans ht) nofun) (h.only hne) nofun ?_
      intro x' tid' reads' heq
      cases heq with
      | inl heq => cases heq
      | inr heq =>
        obtain ⟨-, rfl, -⟩ := Pc.call.inj heq
        exact h.aims i tid (.inl ⟨x, reads, .inl hi⟩)
    · cases hn
      have hout : Even (s.goto i .out) := h.goto (fun t ht => absurd (hi.symm.trans ht) nofun)
        (h.only hne) nofun fun _ _ _ heq => by cases heq <;> contradiction
      exact ⟨hout.spread, hout.alone, hout.within, hout.reads, hout.aims⟩
  case h_4 x tid reads hi =>
    obtain ⟨T, hT, rfl⟩ := Option.map_eq_some_iff.mp hn
    exact h.call hi hT
  case h_5 tid hi =>
    have hne : s.pc i ≠ .out := by rw [hi]; nofun
    split_ifs at hn with hout
    cases hn
    refine h.goto (fun t ht => ?_) (h.only hne) nofun fun _ _ _ heq => by
      cases heq <;> contradiction
    obtain rfl := Pc.running.inj (hi.symm.trans ht)
    exact hout
  case h_6 hi =>
    have hne : s.pc i ≠ .out := by rw [hi]; nofun
    cases hn
    have hout : Even (s.goto i .out) := h.goto (fun t ht => absurd (hi.symm.trans ht) nofun)
      (h.only hne) nofun fun _ _ _ heq => by cases heq <;> contradiction
    exact ⟨hout.spread, hout.alone, hout.within, hout.reads, hout.aims⟩

theorem Even.step {a : Act} (h : Even s) (hp : Placing s) (hexact : ∀ t, Load.Exact (s.threads t))
    (hok : Serial s a) (hn : next s a = some s') : Even s' := by
  cases a with
  | schedule i x tid =>
    simp only [next, Option.ite_none_right_eq_some] at hn
    obtain ⟨hi, hn⟩ := hn
    rw [if_pos hok.1] at hn
    cases hn
    refine h.goto (fun t ht => absurd (hi.symm.trans ht) nofun) (fun j hj => absurd (hok.2 j) hj)
      ?_ fun _ _ _ heq => by cases heq <;> contradiction
    intro x' k minLoad tid' reads heq
    obtain ⟨-, rfl, -, -, rfl⟩ := Pc.scan.inj heq
    rfl
  | step i answer => exact h.caller hp hexact hn
  | thread t a =>
    simp only [next, Option.ite_none_right_eq_some, Option.map_eq_some_iff] at hn
    obtain ⟨⟨-, hinner⟩, T, hT, rfl⟩ := hn
    exact h.thread hinner hok.2 hT

theorem even_inductive : system.InductiveUnder Serial
    (fun s => Placing s ∧ ∀ t, Load.Exact (s.threads t)) Even where
  init := by
    rintro s ⟨-, -, hstart, -, hout, -⟩
    have hload (t : ℕ) : s.load t = 0 := by rw [State.load, hstart]; rfl
    refine ⟨fun t _ t' _ => ?_, fun i j hi => absurd (hout i) hi, fun t i hi => ?_,
      fun i x k minLoad tid reads hi => ?_, fun i tid _ t _ => ?_⟩
    · rw [hload]
      exact Nat.zero_le _
    · rw [hstart] at hi
      exact absurd rfl hi
    · exact absurd ((hout i).symm.trans hi) nofun
    · rw [hload]
      exact Nat.zero_le _
  step _ _ _ hJ h hok hn := h.step hJ.1 hJ.2 hok hn

/-- Calls that come one at a time spread their items evenly over the threads, as their loads say
when the last call has returned. -/
theorem loads_differ_by_one (hs : system.ReachableBy Serial s) :
    (∀ t < s.threadCount, ∀ t' < s.threadCount, s.load t ≤ s.load t' + 1) ∧
    ((∀ i, s.pc i = .out) → ∀ t, (s.threads t).inflight = s.load t) := by
  have hordered (u : State) (hu : system.ReachableBy Serial u) : system.ReachableBy Ordered u :=
    hu.mono fun _ _ h => h.ordered
  have heven := even_inductive.holds
    (fun u hu => ⟨placing_inductive.holds hu.reachable, thread_exact (hordered u hu)⟩) hs
  refine ⟨heven.spread, fun hout t => ?_⟩
  have hquiet (i : ℕ) : (s.threads t).pc i = .out := by
    by_contra hi
    exact absurd ((hout i).symm.trans (heven.within t i hi)) nofun
  exact ((thread_exact (hordered s hs) t).quiet hquiet).trans (Load.countP_kinds _)

end Balance

section Runs

def State.start (threadCount : ℕ) : State where
  threads _ := .start
  threadCount := threadCount
  totalScheduled := 0
  pc _ := .out
  failed := 0
  aborts := 0

/-- A caller gives a coroutine to whichever of two threads. -/
def givenOne : List Act :=
  [.step 1 true, .step 1 true, .step 1 true, .thread 0 (.step 1), .thread 0 (.step 1),
    .thread 0 (.loadInflight 1), .thread 0 (.loadMax 1), .thread 0 (.step 1), .step 1 true,
    .step 1 true]

def schedules : Act → Bool
  | .schedule _ _ _ => true
  | _ => false

/-- A test that is enough for `Ordered`, and for `Serial` with a second one on `schedule`. -/
def serial (s : State) : Act → Bool
  | .schedule _ _ _ => true
  | .thread t a => Load.ordered (s.threads t) a && match a with
    | .take _ _ => false
    | _ => true
  | .step _ _ => s.totalScheduled + 1 < 2 ^ 64

theorem serial_sound {s : State} {a : Act} (ha : schedules a = false) (h : serial s a = true) :
    Serial s a := by
  cases a with
  | schedule => cases ha
  | step => exact fun _ => by simpa [serial] using h
  | thread t a =>
    obtain ⟨hordered, htake⟩ := Bool.and_eq_true_iff.mp h
    refine ⟨Load.ordered_sound _ _ hordered, ?_⟩
    rintro i n rfl
    cases htake

theorem ordered_of_serial (s : State) (a : Act) (h : serial s a = true) : Ordered s a := by
  cases ha : schedules a with
  | false => exact (serial_sound ha h).ordered
  | true =>
    cases a with
    | schedule => trivial
    | _ => cases ha

theorem init_start {threadCount : ℕ} (hpos : 0 < threadCount) (hmax : threadCount ≤ 64) :
    system.init (.start threadCount) :=
  ⟨hpos, hmax, fun _ => rfl, rfl, fun _ => rfl, rfl, rfl⟩

/-- A caller names a thread, which has the item counted when the call is under way. -/
def named (i t : ℕ) : List Act :=
  [.schedule i (.coro i) t, .step i true, .step i true, .thread t (.step i), .thread t (.step i)]

/-- The loads are 2, 1 and 2, the last one only after the first was read. -/
def threeLoads : List Act :=
  named 1 0 ++ named 2 0 ++ named 3 1 ++ named 4 2 ++
    [.schedule 6 (.coro 7) THREAD_ID_ANY, .step 6 true] ++ named 5 2 ++
    [.step 6 true, .step 6 true, .step 6 true]

theorem any_thread_is_least_threeLoads : ∃ s, system.Reachable s ∧
    s.pc 6 = .assert (.coro 7) 1 [2, 1, 2] ∧ 1 < s.threadCount ∧
    Chosen s.threadCount 1 [2, 1, 2] := by
  obtain ⟨s, hs, hp⟩ := system.exists_reachable_of_run threeLoads
    (fun s => s.pc 6 = .assert (.coro 7) 1 [2, 1, 2]) (s := .start 3)
    (init_start (by decide) (by decide)) (by decide)
  have hpc : s.pc 6 = .assert (.coro 7) 1 [2, 1, 2] := by simpa using hp
  exact ⟨s, hs, hpc, any_thread_is_least hs 6 (.coro 7) 1 [2, 1, 2] (.inl hpc) nofun⟩

theorem accounts_add_up_given : ∃ s, system.ReachableBy Ordered s ∧ s.totalScheduled = 1 ∧
    (∀ t, Load.Exact (s.threads t)) ∧ ((∀ i, s.pc i = .out) → s.totalScheduled =
      ∑ t ∈ Finset.range s.threadCount, (s.threads t).totalQueued + s.failed) := by
  obtain ⟨s, hs, hp⟩ := system.exists_reachableBy_of_runIf serial
    (.schedule 1 (.coro 7) THREAD_ID_ANY :: givenOne) (fun s => s.totalScheduled == 1)
    ordered_of_serial (s := .start 2) (init_start (by decide) (by decide)) (by decide)
  exact ⟨s, hs, by simpa using hp, accounts_add_up hs⟩

theorem loads_differ_by_one_given : ∃ s, system.ReachableBy Serial s ∧ s.totalScheduled = 1 ∧
    (∀ t < s.threadCount, ∀ t' < s.threadCount, s.load t ≤ s.load t' + 1) ∧
    ((∀ i, s.pc i = .out) → ∀ t, (s.threads t).inflight = s.load t) := by
  have hfirst : system.ReachableBy Serial
      ((State.start 2).goto 1 (.scan (.coro 7) 0 (2 ^ 64 - 1) 0 [])) :=
    .step (a := .schedule 1 (.coro 7) THREAD_ID_ANY)
      (.init (init_start (by decide) (by decide))) ⟨rfl, fun _ => rfl⟩ rfl
  have hrun : (system.runIf (fun s a => serial s a && !schedules a)
      ((State.start 2).goto 1 (.scan (.coro 7) 0 (2 ^ 64 - 1) 0 [])) givenOne).map
        (fun s => s.totalScheduled == 1) = some true := by decide
  obtain ⟨s, hrun, hp⟩ := Option.map_eq_some_iff.mp hrun
  have hs := System.runIf_reachableBy (fun s a h => serial_sound
    (by simpa using (Bool.and_eq_true_iff.mp h).2) (Bool.and_eq_true_iff.mp h).1) hfirst hrun
  exact ⟨s, hs, by simpa using hp, loads_differ_by_one hs⟩

end Runs

end Suil.Async.Dispatch
