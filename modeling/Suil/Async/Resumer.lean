import Mathlib.Data.Finset.Card
import Suil.Async.WaiterQueue

/-! Who is in the loop of `resumeWaiters`, and what the two counters say. `operator co_await` is there
besides `set`, `reset` and `await_suspend`; each call of it has a number. The write through the null
pointer at the first pop ends the process or is lost. -/
namespace Suil.Async.Resumer
open Transition Linked WaiterQueue
open AutoReset (SET_INCREMENT WAITER_INCREMENT get_set_count get_waiter_count
  get_resumable_waiter_count)

/-- `acquiring` has what a call of `operator co_await` has loaded before its compare-exchange. -/
structure State where
  queue : WaiterQueue.State
  acquiring : ℕ → Option ℕ

namespace State

def start (initiallySet : Bool) : State := ⟨.start initiallySet, fun _ => none⟩

variable (s : State)

/-- The load of `operator co_await`. -/
def coAwait (c : ℕ) : State :=
  if get_set_count s.queue.state > get_waiter_count s.queue.state then
    { s with acquiring := Function.update s.acquiring c (some s.queue.state) }
  else s

/-- Its compare-exchange. -/
def acquire (c oldState : ℕ) : State :=
  let s' := { s with acquiring := Function.update s.acquiring c none }
  if s.queue.state = oldState then
    { s' with queue := { s.queue with state := (oldState + 2 ^ 64 - SET_INCREMENT) % 2 ^ 64 } }
  else s'

end State

/-- The first pop, if the write through `waitersToResume` is lost. -/
def popLost (s : WaiterQueue.State) (t : ℕ) (call : Call) : WaiterQueue.State :=
  match s.waiters with
  | none => s.crash
  | some waiterToResume =>
    let s := { s with
      waiters := s.next waiterToResume, taken := s.taken ++ [waiterToResume] }
    let (s, call) := s.append call waiterToResume
    match call.waitersToResume with
    | some head =>
      s.goto t (.resume { call with waitersToResumeEnd := .next head, i := call.i + 1 } .pick)
    | none => s.crash

inductive Act
  | queue (a : WaiterQueue.Act)
  | lost (t : ℕ)
  | coAwait (c : ℕ)
  | acquire (c : ℕ)

def next (s : State) : Act → Option State
  | .queue a => (WaiterQueue.next s.queue a).map fun q => { s with queue := q }
  | .lost t =>
    if s.queue.crashed then none
    else
      match s.queue.pc t with
      | .resume call .pop =>
        if call.waitersToResume = none then some { s with queue := popLost s.queue t call } else none
      | _ => none
  | .coAwait c =>
    if s.queue.crashed then none else if s.acquiring c = none then some (s.coAwait c) else none
  | .acquire c =>
    if s.queue.crashed then none
    else
      match s.acquiring c with
      | some oldState => some (s.acquire c oldState)
      | none => none

def system (initiallySet : Bool) : System State Act where
  init s := s = .start initiallySet
  next := next

/-- There are fewer than `2 ^ 32 - 1` waiters when one more is counted. -/
def Few (s : State) : Act → Prop
  | .queue (.step c _) => s.queue.pc c = .count → get_waiter_count s.queue.state + 1 < 2 ^ 32 - 1
  | _ => True

/-- The call that a thread makes of the loop that takes waiters off the lists. -/
def dequeue : Pc → Option (Call × Stage)
  | .resume call stage => if stage = .drop then none else some (call, stage)
  | _ => none

/-- What a step subtracts from the set count and from the waiter count. -/
inductive Subtracts (s : State) : Act → ℕ → ℕ → Prop
  | reset {c oldState : ℕ} (hc : s.queue.pc c = .reset oldState) (h : s.queue.state = oldState) :
      Subtracts s (.queue (.step c false)) 1 0
  | acquire {c oldState : ℕ} (hc : s.acquiring c = some oldState) (h : s.queue.state = oldState) :
      Subtracts s (.acquire c) 1 0
  | resume {c : ℕ} {call : Call} {spurious : Bool} (hc : s.queue.pc c = .resume call .subtract) :
      Subtracts s (.queue (.step c spurious)) call.waitersToResumeCount call.waitersToResumeCount

/-- One thread is in the loop, the counters are told apart, and there is a waiter to take. -/
structure Sound (s : State) : Prop where
  one : ∀ c d, (dequeue (s.queue.pc c)).isSome → (dequeue (s.queue.pc d)).isSome → c = d
  sets : get_set_count s.queue.state ≤ get_waiter_count s.queue.state + 1
  borrow : ∀ a x y t, Subtracts s a x y → next s a = some t →
    get_set_count t.queue.state + x = get_set_count s.queue.state ∧
      get_waiter_count t.queue.state + y = get_waiter_count s.queue.state
  pick : ∀ c call, s.queue.pc c = .resume call .pick → call.i < call.waitersToResumeCount →
    s.queue.waiters ≠ none ∨ s.queue.newWaiters ≠ none
  take : ∀ c call, s.queue.pc c = .resume call .take → s.queue.newWaiters ≠ none
  pop : ∀ c call, s.queue.pc c = .resume call .pop → s.queue.waiters ≠ none

/-- The two counters in one word. -/
structure Word (state sets waiting : ℕ) : Prop where
  eq : state = sets + waiting * 2 ^ 32
  sets : sets ≤ waiting + 1
  few : waiting + 1 < 2 ^ 32

section Words
variable {state sets waiting n : ℕ}

theorem Word.set_count (h : Word state sets waiting) : get_set_count state = sets := by
  have heq := h.eq
  have hsets := h.sets
  have hfew := h.few
  unfold get_set_count
  omega

theorem Word.waiter_count (h : Word state sets waiting) : get_waiter_count state = waiting := by
  have heq := h.eq
  have hsets := h.sets
  have hfew := h.few
  unfold get_waiter_count
  omega

theorem Word.set (h : Word state sets waiting) (hle : sets ≤ waiting) :
    Word ((state + SET_INCREMENT) % 2 ^ 64) (sets + 1) waiting := by
  have heq := h.eq
  have hfew := h.few
  unfold SET_INCREMENT
  constructor
  · omega
  · omega
  · exact hfew

theorem Word.reset (h : Word state sets waiting) (hlt : waiting < sets) :
    Word ((state + 2 ^ 64 - SET_INCREMENT) % 2 ^ 64) (sets - 1) waiting := by
  have heq := h.eq
  have hsets := h.sets
  have hfew := h.few
  unfold SET_INCREMENT
  constructor
  · omega
  · omega
  · exact hfew

theorem Word.count (h : Word state sets waiting) (hfew : waiting + 1 < 2 ^ 32 - 1) :
    Word ((state + WAITER_INCREMENT) % 2 ^ 64) sets (waiting + 1) := by
  have heq := h.eq
  have hsets := h.sets
  unfold WAITER_INCREMENT
  constructor
  · omega
  · omega
  · omega

theorem Word.subtract (h : Word state sets waiting) (hsets : n ≤ sets) (hwaiting : n ≤ waiting) :
    Word ((state + 2 ^ 64 - (n + n * 2 ^ 32) % 2 ^ 64) % 2 ^ 64) (sets - n) (waiting - n) := by
  have heq := h.eq
  have hle := h.sets
  have hfew := h.few
  constructor
  · omega
  · omega
  · omega

end Words

/-- What a thread has loaded was tested. -/
def Loaded : Pc → Prop
  | .set oldState => get_set_count oldState ≤ get_waiter_count oldState
  | .reset oldState => get_set_count oldState > get_waiter_count oldState
  | _ => True

/-- The operation of that number, if there is one, was not pushed yet. -/
def Fresh : Pc → Prop
  | .count | .release | .suspended | .told => False
  | .resume call _ => call.suspending = false
  | _ => True

/-- Where the threads are; `uncounted` are the operations that were pushed and not counted. -/
structure Places (pc : ℕ → Pc) (pushed : List ℕ) (uncounted : Finset ℕ) : Prop where
  loaded : ∀ c, Loaded (pc c)
  fresh : ∀ c, Fresh (pc c) → c ∉ pushed
  uncounted : ∀ c, c ∈ uncounted ↔ pc c = .count

/-- No call but `w` is in the loop. -/
structure Alone (pc : ℕ → Pc) (w : Option (Call × Stage)) : Prop where
  one : ∀ c d, (dequeue (pc c)).isSome → (dequeue (pc d)).isSome → c = d
  call : ∀ c x, dequeue (pc c) = some x → w = some x

section Places
variable {pc : ℕ → Pc} {pushed : List ℕ} {w : Option (Call × Stage)} {uncounted : Finset ℕ}
  {c : ℕ} {pc' : Pc}

theorem Places.goto (h : Places pc pushed uncounted) (hloaded : Loaded pc')
    (hfresh : Fresh pc' → Fresh (pc c)) (hcount : pc' ≠ .count) :
    Places (Function.update pc c pc') pushed (uncounted.erase c) where
  loaded := (Function.forall_update_iff pc fun _ pc => Loaded pc).mpr
    ⟨hloaded, fun d _ => h.loaded d⟩
  fresh := (Function.forall_update_iff pc fun d pc => Fresh pc → d ∉ pushed).mpr
    ⟨fun hpc => h.fresh c (hfresh hpc), fun d _ => h.fresh d⟩
  uncounted := by
    apply (Function.forall_update_iff pc fun d pc => d ∈ uncounted.erase c ↔ pc = .count).mpr
    constructor
    · exact iff_of_false (Finset.notMem_erase c uncounted) hcount
    · intro d hd
      rw [Finset.mem_erase, h.uncounted]
      exact and_iff_right hd

theorem Places.push (h : Places pc pushed uncounted) :
    Places (Function.update pc c .count) (pushed ++ [c]) (insert c uncounted) where
  loaded := (Function.forall_update_iff pc fun _ pc => Loaded pc).mpr
    ⟨trivial, fun d _ => h.loaded d⟩
  fresh := by
    apply (Function.forall_update_iff pc fun d pc => Fresh pc → d ∉ pushed ++ [c]).mpr
    constructor
    · exact fun hpc => absurd hpc id
    · intro d hd hpc hmem
      rcases List.mem_append.mp hmem with hmem | hmem
      · exact h.fresh d hpc hmem
      · exact hd (List.mem_singleton.mp hmem)
  uncounted := by
    apply (Function.forall_update_iff pc fun d pc => d ∈ insert c uncounted ↔ pc = .count).mpr
    constructor
    · exact iff_of_true (Finset.mem_insert_self c uncounted) rfl
    · intro d hd
      rw [Finset.mem_insert, h.uncounted]
      exact or_iff_right hd

/-- The thread is not in the loop afterwards. -/
theorem Alone.keep (h : Alone pc w) (hdequeue : dequeue pc' = none) :
    Alone (Function.update pc c pc') w := by
  have hold : ∀ d x, dequeue (Function.update pc c pc' d) = some x → dequeue (pc d) = some x := by
    apply (Function.forall_update_iff pc fun d pc' => ∀ x, dequeue pc' = some x →
      dequeue (pc d) = some x).mpr
    constructor
    · intro x hx
      rw [hdequeue] at hx
      cases hx
    · exact fun d _ x hx => hx
  constructor
  · intro d e hd he
    obtain ⟨x, hx⟩ := Option.isSome_iff_exists.mp hd
    obtain ⟨y, hy⟩ := Option.isSome_iff_exists.mp he
    apply h.one d e
    · exact Option.isSome_iff_exists.mpr ⟨x, hold d x hx⟩
    · exact Option.isSome_iff_exists.mpr ⟨y, hold e y hy⟩
  · exact fun d x hd => h.call d x (hold d x hd)

/-- The thread was in the loop, or nobody was. -/
theorem Alone.move (h : Alone pc w) (hc : dequeue (pc c) = w) :
    Alone (Function.update pc c pc') (dequeue pc') := by
  have hself : ∀ d, (dequeue (Function.update pc c pc' d)).isSome → d = c := by
    apply (Function.forall_update_iff pc fun d pc' => (dequeue pc').isSome → d = c).mpr
    constructor
    · exact fun _ => rfl
    · intro d _ hd
      obtain ⟨x, hx⟩ := Option.isSome_iff_exists.mp hd
      have hw : dequeue (pc c) = some x := hc.trans (h.call d x hx)
      exact h.one d c hd (Option.isSome_iff_exists.mpr ⟨x, hw⟩)
  constructor
  · exact fun d e hd he => (hself d hd).trans (hself e he).symm
  · intro d x hd
    obtain rfl := hself d (Option.isSome_iff_exists.mpr ⟨x, hd⟩)
    rw [Function.update_self] at hd
    exact hd

end Places

/-- What the call in the loop has done and will do. -/
structure Loop (waiters : Option ℕ) (taken : List ℕ) (sets waiting : ℕ) (call : Call)
    (stage : Stage) : Prop where
  pos : 0 < call.waitersToResumeCount
  sets : call.waitersToResumeCount ≤ sets
  waiting : call.waitersToResumeCount ≤ waiting
  bound : call.i ≤ call.waitersToResumeCount
  turn : stage ≠ .pick → stage ≠ .subtract → call.i < call.waitersToResumeCount
  full : stage = .subtract → call.i = call.waitersToResumeCount
  take : stage = .take → waiters = none
  pop : stage = .pop → waiters ≠ none
  any : 0 < call.i → call.waitersToResume ≠ none
  head : ∀ op, call.waitersToResume = some op → op ∈ taken
  slot : ∀ op, call.waitersToResumeEnd = .next op → op ∈ taken ∧ call.waitersToResume ≠ none

/-- The list that is being moved to `_waiters`. -/
def moving : Option (Call × Stage) → Option ℕ
  | some (_, .reverse op) => some op
  | _ => none

/-- How many were taken and not subtracted yet. -/
def turns : Option (Call × Stage) → ℕ
  | some (call, _) => call.i
  | none => 0

/-- The operations in the lists, which were pushed and not taken. -/
structure Lists (next : ℕ → Option ℕ) (waiters newWaiters p : Option ℕ) (pushed taken : List ℕ)
    (old rev new : List ℕ) : Prop where
  waiters : Chain next waiters old
  moving : Chain next p rev
  newWaiters : Chain next newWaiters new
  nodup : (old ++ rev ++ new).Nodup
  items : ∀ op ∈ old ++ rev ++ new, op ∈ pushed ∧ op ∉ taken
  order : ∀ op ∈ taken, op ∈ pushed

section Lists
variable {next : ℕ → Option ℕ} {waiters newWaiters p : Option ℕ} {pushed taken old rev new : List ℕ}
  {c op : ℕ}

theorem not_mem_parts (h : c ∉ old ++ rev ++ new) : c ∉ old ∧ c ∉ rev ∧ c ∉ new := by
  rw [List.mem_append, List.mem_append, not_or, not_or] at h
  exact ⟨h.1.1, h.1.2, h.2⟩

theorem Lists.link (h : Lists next waiters newWaiters p pushed taken old rev new)
    (hc : c ∉ old ++ rev ++ new) (head : Option ℕ) :
    Lists (Function.update next c head) waiters newWaiters p pushed taken old rev new := by
  obtain ⟨hold, hrev, hnew⟩ := not_mem_parts hc
  exact { h with
    waiters := h.waiters.update hold
    moving := h.moving.update hrev
    newWaiters := h.newWaiters.update hnew }

/-- A write to an item that was taken. -/
theorem Lists.link_taken (h : Lists next waiters newWaiters p pushed taken old rev new)
    (hop : op ∈ taken) (head : Option ℕ) :
    Lists (Function.update next op head) waiters newWaiters p pushed taken old rev new :=
  h.link (fun hmem => (h.items op hmem).2 hop) head

theorem Lists.push (h : Lists next waiters newWaiters p pushed taken old rev new)
    (hc : c ∉ pushed) : Lists (Function.update next c newWaiters) waiters (some c) p (pushed ++ [c])
      taken old rev (c :: new) := by
  have hnot : c ∉ old ++ rev ++ new := fun hmem => hc (h.items c hmem).1
  have hlink := h.link hnot newWaiters
  obtain ⟨-, -, hnew⟩ := not_mem_parts hnot
  have hperm : (old ++ rev ++ c :: new).Perm (c :: (old ++ rev ++ new)) := List.perm_middle
  refine ⟨hlink.waiters, hlink.moving, h.newWaiters.push hnew, ?_, ?_, ?_⟩
  · rw [hperm.nodup_iff, List.nodup_cons]
    exact ⟨hnot, h.nodup⟩
  · intro op hop
    rcases List.mem_cons.mp (hperm.mem_iff.mp hop) with rfl | hop
    · exact ⟨by simp, fun htaken => hc (h.order op htaken)⟩
    · exact ⟨List.mem_append_left _ (h.items op hop).1, (h.items op hop).2⟩
  · exact fun op hop => List.mem_append_left _ (h.order op hop)

/-- The first item of the list that is moved is put in front of `_waiters`. -/
theorem Lists.reverse
    (h : Lists next waiters newWaiters (some op) pushed taken old (op :: rev) new) :
    Lists (Function.update next op waiters) (some op) newWaiters (next op) pushed taken (op :: old)
      rev new := by
  have hperm : (op :: old ++ rev ++ new).Perm (old ++ op :: rev ++ new) :=
    List.Perm.append_right new List.perm_middle.symm
  have hnodup := hperm.nodup_iff.mpr h.nodup
  obtain ⟨hold, hrev, hnew⟩ := not_mem_parts (List.nodup_cons.mp hnodup).1
  refine ⟨h.waiters.push hold, h.moving.2.update hrev, h.newWaiters.update hnew, hnodup, ?_, h.order⟩
  exact fun x hx => h.items x (hperm.mem_iff.mp hx)

/-- The first item of `_waiters` is taken. -/
theorem Lists.pop (h : Lists next waiters newWaiters p pushed taken (op :: old) rev new) :
    Lists next (next op) newWaiters p pushed (taken ++ [op]) old rev new := by
  obtain ⟨hnot, hnodup⟩ := List.nodup_cons.mp h.nodup
  refine ⟨h.waiters.2, h.moving, h.newWaiters, hnodup, fun x hx => ?_, fun x hx => ?_⟩
  · obtain ⟨hpushed, htaken⟩ := h.items x (List.mem_cons_of_mem op hx)
    refine ⟨hpushed, fun hmem => ?_⟩
    rcases List.mem_append.mp hmem with hmem | hmem
    · exact htaken hmem
    · rw [List.mem_singleton.mp hmem] at hx
      exact hnot hx
  · rcases List.mem_append.mp hx with hx | hx
    · exact h.order x hx
    · rw [List.mem_singleton.mp hx]
      exact (h.items op List.mem_cons_self).1

end Lists

/-- The waiters that are counted and not subtracted are in the lists, but for those that the call
in the loop has taken. -/
structure Held (q : WaiterQueue.State) (sets waiting : ℕ) (w : Option (Call × Stage))
    (old rev new : List ℕ) (uncounted : Finset ℕ) : Prop where
  word : Word q.state sets waiting
  places : Places q.pc q.pushed uncounted
  alone : Alone q.pc w
  loop : ∀ call stage, w = some (call, stage) → Loop q.waiters q.taken sets waiting call stage
  lists : Lists q.next q.waiters q.newWaiters (moving w) q.pushed q.taken old rev new
  total : old.length + rev.length + new.length + turns w = waiting + uncounted.card

/-- What holds in every state. -/
structure Inv (s : State) : Prop where
  acquiring : ∀ c oldState, s.acquiring c = some oldState →
    get_set_count oldState > get_waiter_count oldState
  held : ∃ sets waiting w old rev new uncounted, Held s.queue sets waiting w old rev new uncounted

section Held
variable {q : WaiterQueue.State} {state sets sets' waiting c oldState n : ℕ} {head : Option ℕ}
  {w : Option (Call × Stage)} {old rev new : List ℕ} {uncounted : Finset ℕ} {pc : Pc}
  {call call' : Call} {stage stage' : Stage} {spurious : Bool}

theorem fresh_of (hc : q.pc c = pc) (hpc : Fresh pc) : Fresh (q.pc c) := by
  rw [hc]
  exact hpc

theorem ne_count (hc : q.pc c = pc) (hpc : pc ≠ .count) : q.pc c ≠ .count := by
  rw [hc]
  exact hpc

theorem dequeue_eq (hc : q.pc c = .resume call stage) (hstage : stage ≠ .drop) :
    dequeue (q.pc c) = some (call, stage) := by
  rw [hc]
  exact if_neg hstage

/-- The operation is not counted, or not any more. -/
theorem Places.erase {pushed : List ℕ} {uncounted : Finset ℕ} (h : Places q.pc pushed uncounted)
    (hc : q.pc c ≠ .count) : uncounted.erase c = uncounted := by
  apply Finset.erase_eq_of_notMem
  exact fun hmem => hc ((h.uncounted c).mp hmem)

/-- A thread that is not in the loop, or leaves it. -/
theorem Held.goto (h : Held q sets waiting w old rev new uncounted)
    (hdequeue : dequeue pc = none) (hloaded : Loaded pc) (hfresh : Fresh pc → Fresh (q.pc c))
    (hcount : pc ≠ .count) (hc : q.pc c ≠ .count) :
    Held (q.goto c pc) sets waiting w old rev new uncounted where
  word := h.word
  places := by
    have hplaces := h.places.goto hloaded hfresh hcount
    rw [h.places.erase hc] at hplaces
    exact hplaces
  alone := h.alone.keep hdequeue
  loop := h.loop
  lists := h.lists
  total := h.total

/-- The counters, where what the call in the loop will subtract is still there. -/
theorem Held.store (h : Held q sets waiting w old rev new uncounted)
    (hword : Word state sets' waiting) (hsets : sets ≤ sets' ∨ waiting ≤ sets') :
    Held { q with state } sets' waiting w old rev new uncounted where
  word := hword
  places := h.places
  alone := h.alone
  loop call stage hw := by
    have hloop := h.loop call stage hw
    have hle := hloop.sets
    have hle' := hloop.waiting
    exact { hloop with sets := by omega }
  lists := h.lists
  total := h.total

theorem Held.fields (h : Held q sets waiting w old rev new uncounted) (refCount : ℕ → ℕ)
    (crashed : Bool) (dropped resumed told : List ℕ) (subtracted : ℕ) :
    Held { q with refCount, crashed, dropped, resumed, told, subtracted } sets waiting w old rev new
      uncounted := ⟨h.word, h.places, h.alone, h.loop, h.lists, h.total⟩

theorem Held.setLoop (h : Held q sets waiting w old rev new uncounted) (hc : Fresh (q.pc c))
    (hcount : q.pc c ≠ .count) :
    Held (q.setLoop c oldState) sets waiting w old rev new uncounted := by
  unfold WaiterQueue.State.setLoop
  split_ifs with htest
  · exact h.goto rfl trivial (fun _ => hc) Pc.noConfusion hcount
  · exact h.goto rfl (Nat.le_of_not_lt htest) (fun _ => hc) Pc.noConfusion hcount

theorem Held.resetLoop (h : Held q sets waiting w old rev new uncounted) (hc : Fresh (q.pc c))
    (hcount : q.pc c ≠ .count) :
    Held (q.resetLoop c oldState) sets waiting w old rev new uncounted := by
  unfold WaiterQueue.State.resetLoop
  split_ifs with htest
  · exact h.goto rfl htest (fun _ => hc) Pc.noConfusion hcount
  · exact h.goto rfl trivial (fun _ => hc) Pc.noConfusion hcount

/-- A new waiter is put in front, and is counted later. -/
theorem Held.push (h : Held q sets waiting w old rev new uncounted) (hc : q.pc c = .push head) :
    ∃ new uncounted, Held (q.push c head spurious) sets waiting w old rev new uncounted := by
  have hfresh : Fresh (q.pc c) := fresh_of hc trivial
  have hcount : q.pc c ≠ .count := ne_count hc Pc.noConfusion
  have hpushed : c ∉ q.pushed := h.places.fresh c hfresh
  have hnot : c ∉ old ++ rev ++ new := fun hmem => hpushed (h.lists.items c hmem).1
  unfold WaiterQueue.State.push
  simp only
  split_ifs with hfail
  · have hlink : Held { q with next := Function.update q.next c head } sets waiting w old rev new
        uncounted := { h with lists := h.lists.link hnot head }
    exact ⟨new, uncounted, hlink.goto rfl trivial (fun _ => hfresh) Pc.noConfusion hcount⟩
  · have hhead : q.newWaiters = head := not_not.mp (not_or.mp hfail).2
    have hlists := h.lists.push hpushed
    rw [hhead] at hlists
    have hfree : c ∉ uncounted := fun hmem => hcount ((h.places.uncounted c).mp hmem)
    refine ⟨c :: new, insert c uncounted, h.word, h.places.push, h.alone.keep rfl, h.loop, hlists, ?_⟩
    have htotal := h.total
    rw [Finset.card_insert_of_notMem hfree, List.length_cons]
    omega

/-- A call of `resumeWaiters` begins. -/
theorem held_enter (suspending : Bool) (hword : Word q.state sets waiting)
    (hplaces : Places q.pc q.pushed uncounted) (halone : Alone q.pc none)
    (hlists : Lists q.next q.waiters q.newWaiters none q.pushed q.taken old rev new)
    (htotal : old.length + rev.length + new.length = waiting + (uncounted.erase c).card)
    (hc : dequeue (q.pc c) = none) (hfresh : suspending = false → Fresh (q.pc c))
    (hsets : 0 < sets) (hwaiting : 0 < waiting) :
    ∃ w, Held (q.resumeWaiters c suspending q.state) sets waiting w old rev new
      (uncounted.erase c) := by
  have hcount : get_resumable_waiter_count q.state = min waiting sets := by
    unfold AutoReset.get_resumable_waiter_count
    rw [hword.set_count, hword.waiter_count]
  unfold WaiterQueue.State.resumeWaiters
  simp only
  rw [hcount, if_neg (by omega)]
  refine ⟨_, hword, ?_, halone.move hc, ?_, hlists, ?_⟩
  · exact hplaces.goto trivial hfresh Pc.noConfusion
  · rintro call stage ⟨⟩
    have hpos : 0 < min waiting sets := by omega
    exact ⟨hpos, Nat.min_le_right _ _, Nat.min_le_left _ _, Nat.zero_le _, fun hne => absurd rfl hne,
      Stage.noConfusion, Stage.noConfusion, Stage.noConfusion, fun hlt => absurd hlt (Nat.lt_irrefl 0),
      fun _ hop => absurd hop.symm (Option.some_ne_none _), fun _ hop => Slot.noConfusion hop⟩
  · exact htotal

/-- Nobody is in the loop while there is nothing to subtract. -/
theorem Held.idle (h : Held q sets waiting w old rev new uncounted)
    (hzero : sets = 0 ∨ waiting = 0) : w = none := by
  cases w with
  | none => rfl
  | some x =>
    have hloop := h.loop x.1 x.2 rfl
    have hpos := hloop.pos
    have hsets := hloop.sets
    have hwaiting := hloop.waiting
    omega

theorem Held.setCas (h : Held q sets waiting w old rev new uncounted) (hc : q.pc c = .set oldState) :
    ∃ sets w, Held (q.setCas c oldState spurious) sets waiting w old rev new uncounted := by
  have hfresh : Fresh (q.pc c) := fresh_of hc trivial
  have hcount : q.pc c ≠ .count := ne_count hc Pc.noConfusion
  have hloaded := h.places.loaded c
  rw [hc] at hloaded
  unfold WaiterQueue.State.setCas
  simp only
  split_ifs with hfail hcall
  · exact ⟨sets, w, h.setLoop hfresh hcount⟩
  · obtain rfl : q.state = oldState := not_not.mp (not_or.mp hfail).2
    have hzero : sets = 0 := h.word.set_count.symm.trans hcall.2
    obtain rfl := h.idle (.inl hzero)
    have hword := h.word.set (by omega)
    have hwaiting : 0 < waiting := by
      have heq := h.word.eq
      have hne := hcall.1
      omega
    have hplaces := h.places
    have herase := hplaces.erase hcount
    have hdequeue : dequeue (q.pc c) = none := by
      rw [hc]
      rfl
    have htotal : old.length + rev.length + new.length = waiting + (uncounted.erase c).card := by
      rw [herase]
      exact h.total
    obtain ⟨w, hheld⟩ := held_enter (q := { q with
      state := (q.state + SET_INCREMENT) % 2 ^ 64 }) false hword hplaces h.alone h.lists htotal
      hdequeue (fun _ => hfresh) (Nat.succ_pos sets) hwaiting
    rw [herase] at hheld
    exact ⟨sets + 1, w, hheld⟩
  · obtain rfl : q.state = oldState := not_not.mp (not_or.mp hfail).2
    have hle : sets ≤ waiting := by
      have hloaded' : get_set_count q.state ≤ get_waiter_count q.state := hloaded
      rw [h.word.set_count, h.word.waiter_count] at hloaded'
      exact hloaded'
    have hstore := h.store (h.word.set hle) (.inl (Nat.le_succ sets))
    exact ⟨sets + 1, w, hstore.goto rfl trivial (fun _ => hfresh) Pc.noConfusion hcount⟩

theorem Held.resetCas (h : Held q sets waiting w old rev new uncounted)
    (hc : q.pc c = .reset oldState) :
    ∃ sets, Held (q.resetCas c oldState spurious) sets waiting w old rev new uncounted := by
  have hfresh : Fresh (q.pc c) := fresh_of hc trivial
  have hcount : q.pc c ≠ .count := ne_count hc Pc.noConfusion
  have hloaded := h.places.loaded c
  rw [hc] at hloaded
  unfold WaiterQueue.State.resetCas
  split_ifs with hfail
  · exact ⟨sets, h.resetLoop hfresh hcount⟩
  · obtain rfl : q.state = oldState := not_not.mp (not_or.mp hfail).2
    have hlt : waiting < sets := by
      have hloaded' : get_waiter_count q.state < get_set_count q.state := hloaded
      rw [h.word.set_count, h.word.waiter_count] at hloaded'
      exact hloaded'
    have hstore := h.store (h.word.reset hlt) (.inr (Nat.le_pred_of_lt hlt))
    exact ⟨sets - 1, hstore.goto rfl trivial (fun _ => hfresh) Pc.noConfusion hcount⟩

theorem Held.counted (h : Held q sets waiting w old rev new uncounted) (hc : q.pc c = .count)
    (hword : Word state sets (waiting + 1)) :
    Held (WaiterQueue.State.goto { q with state } c .release) sets (waiting + 1) w old rev new
      (uncounted.erase c) where
  word := hword
  places := h.places.goto trivial (fun hpc => absurd hpc id) Pc.noConfusion
  alone := h.alone.keep rfl
  loop call stage hw := by
    have hloop := h.loop call stage hw
    exact { hloop with waiting := Nat.le_succ_of_le hloop.waiting }
  lists := h.lists
  total := by
    have hcard := Finset.card_erase_add_one ((h.places.uncounted c).mpr hc)
    have htotal := h.total
    omega

theorem Held.count (h : Held q sets waiting w old rev new uncounted) (hc : q.pc c = .count)
    (hfew : get_waiter_count q.state + 1 < 2 ^ 32 - 1) :
    ∃ waiting w uncounted, Held (q.count c) sets waiting w old rev new uncounted := by
  have hmem : c ∈ uncounted := (h.places.uncounted c).mpr hc
  have hcard := Finset.card_erase_add_one hmem
  have htotal := h.total
  have hzero := h.word.waiter_count
  rw [hzero] at hfew
  have hword := h.word.count hfew
  unfold WaiterQueue.State.count
  simp only
  generalize (q.state + WAITER_INCREMENT) % 2 ^ 64 = newState at hword ⊢
  split_ifs with hcall
  · rw [hzero] at hcall
    obtain rfl := h.idle (.inr hcall.2)
    have hsets : 0 < sets := by
      have heq := h.word.eq
      have hne := hcall.1
      omega
    have hdequeue : dequeue (q.pc c) = none := by
      rw [hc]
      rfl
    have htotal' : old.length + rev.length + new.length =
        waiting + 1 + (uncounted.erase c).card := by
      have hturns : turns none = 0 := rfl
      omega
    obtain ⟨w, hheld⟩ := held_enter (q := { q with state := newState }) true hword h.places h.alone
      h.lists htotal' hdequeue (fun hfalse => Bool.noConfusion hfalse) hsets (Nat.succ_pos waiting)
    exact ⟨waiting + 1, w, uncounted.erase c, hheld⟩
  · exact ⟨waiting + 1, w, uncounted.erase c, h.counted hc hword⟩

theorem Held.release (h : Held q sets waiting w old rev new uncounted) (hc : q.pc c = .release) :
    Held (q.release c) sets waiting w old rev new uncounted := by
  have hcount : q.pc c ≠ .count := ne_count hc Pc.noConfusion
  unfold WaiterQueue.State.release
  split_ifs
  · exact (h.fields _ _ _ _ _ _).goto rfl trivial (fun hpc => absurd hpc id) Pc.noConfusion hcount
  · exact (h.fields _ _ _ _ _ _).goto rfl trivial (fun hpc => absurd hpc id) Pc.noConfusion hcount

theorem Held.crash (h : Held q sets waiting w old rev new uncounted) :
    Held q.crash sets waiting w old rev new uncounted :=
  ⟨h.word, h.places, h.alone, h.loop, h.lists, h.total⟩

/-- The last loop is behind the one that takes waiters off the lists. -/
theorem Held.drop (h : Held q sets waiting w old rev new uncounted)
    (hc : q.pc c = .resume call .drop) : Held (q.drop c call) sets waiting w old rev new uncounted := by
  have hcount : q.pc c ≠ .count := ne_count hc Pc.noConfusion
  have hfresh : Fresh (q.pc c) ↔ call.suspending = false := by
    rw [hc]
    exact Iff.rfl
  unfold WaiterQueue.State.drop
  cases call.waitersToResume with
  | none => exact h.crash
  | some waiter =>
    dsimp only
    apply (h.fields _ _ _ _ _ _).goto
    · split_ifs <;> rfl
    · split_ifs <;> trivial
    · rw [hfresh]
      split_ifs with hnext hsuspending
      · exact fun hpc => absurd hpc id
      · exact fun _ => Bool.eq_false_iff.mpr hsuspending
      · exact id
    · split_ifs <;> exact Pc.noConfusion
    · exact hcount

/-- The thread in the loop goes on. -/
theorem held_advance (hword : Word q.state sets waiting) (hplaces : Places q.pc q.pushed uncounted)
    (halone : Alone q.pc w) (hc : q.pc c = .resume call stage) (hw : dequeue (q.pc c) = w)
    (hsuspending : call'.suspending = call.suspending) (hstage : stage' ≠ .drop)
    (hloop : Loop q.waiters q.taken sets waiting call' stage')
    (hlists : Lists q.next q.waiters q.newWaiters (moving (some (call', stage'))) q.pushed q.taken
      old rev new)
    (htotal : old.length + rev.length + new.length + call'.i = waiting + uncounted.card) :
    Held (q.goto c (.resume call' stage')) sets waiting (some (call', stage')) old rev new
      uncounted := by
  have hdequeue : dequeue (.resume call' stage') = some (call', stage') := if_neg hstage
  have hfresh : Fresh (.resume call' stage') → Fresh (q.pc c) := by
    intro hpc
    rw [hc]
    exact hsuspending.symm.trans hpc
  have hgoto : Places (Function.update q.pc c (.resume call' stage')) q.pushed
      (uncounted.erase c) := hplaces.goto trivial hfresh Pc.noConfusion
  rw [hplaces.erase (ne_count hc Pc.noConfusion)] at hgoto
  have hmove : Alone (Function.update q.pc c (.resume call' stage'))
      (dequeue (.resume call' stage')) := halone.move hw
  rw [hdequeue] at hmove
  refine ⟨hword, hgoto, hmove, ?_, hlists, htotal⟩
  rintro call'' stage'' ⟨⟩
  exact hloop

/-- The call that a thread in the loop makes is the one that is accounted for. -/
theorem Held.call_eq (h : Held q sets waiting w old rev new uncounted)
    (hc : q.pc c = .resume call stage) (hstage : stage ≠ .drop) : w = some (call, stage) := by
  apply h.alone.call c
  rw [hc]
  exact if_neg hstage

theorem Held.pick (h : Held q sets waiting w old rev new uncounted)
    (hc : q.pc c = .resume call .pick) :
    ∃ w, Held (q.pick c call) sets waiting w old rev new uncounted := by
  obtain rfl := h.call_eq hc Stage.noConfusion
  have hloop := h.loop call .pick rfl
  have hbound := hloop.bound
  have hw := dequeue_eq hc Stage.noConfusion
  unfold WaiterQueue.State.pick
  by_cases hi : call.i < call.waitersToResumeCount
  · rw [if_pos hi]
    by_cases hnone : q.waiters = none
    · rw [if_pos hnone]
      exact ⟨_, held_advance h.word h.places h.alone hc hw rfl Stage.noConfusion
        { hloop with
          turn := fun _ _ => hi
          full := Stage.noConfusion
          take := fun _ => hnone
          pop := Stage.noConfusion } h.lists h.total⟩
    · rw [if_neg hnone]
      exact ⟨_, held_advance h.word h.places h.alone hc hw rfl Stage.noConfusion
        { hloop with
          turn := fun _ _ => hi
          full := Stage.noConfusion
          take := Stage.noConfusion
          pop := fun _ => hnone } h.lists h.total⟩
  · rw [if_neg hi]
    exact ⟨_, held_advance h.word h.places h.alone hc hw rfl Stage.noConfusion
      { hloop with
        turn := fun _ hne => absurd rfl hne
        full := fun _ => by omega
        take := Stage.noConfusion
        pop := Stage.noConfusion } h.lists h.total⟩

theorem Held.take (h : Held q sets waiting w old rev new uncounted)
    (hc : q.pc c = .resume call .take) :
    ∃ w rev new, Held (q.take c call) sets waiting w old rev new uncounted := by
  obtain rfl := h.call_eq hc Stage.noConfusion
  have hloop := h.loop call .take rfl
  have hw := dequeue_eq hc Stage.noConfusion
  have hturn := hloop.turn Stage.noConfusion Stage.noConfusion
  have hlists := h.lists
  unfold WaiterQueue.State.take
  cases hnew : q.newWaiters with
  | none => exact ⟨_, rev, new, h.crash⟩
  | some op =>
    obtain rfl : rev = [] := chain_none.mp hlists.moving
    have hchain := hlists.newWaiters
    rw [hnew] at hchain
    have hperm : old ++ new ++ [] = old ++ [] ++ new := by simp
    refine ⟨_, new, [], held_advance h.word h.places h.alone hc hw rfl Stage.noConfusion
      { hloop with
        turn := fun _ _ => hturn
        full := Stage.noConfusion
        take := Stage.noConfusion
        pop := Stage.noConfusion }
      ⟨hlists.waiters, hchain, rfl, ?_, ?_, hlists.order⟩ ?_⟩
    · rw [hperm]
      exact hlists.nodup
    · rw [hperm]
      exact hlists.items
    · have htotal := h.total
      have hturns : turns (some (call, Stage.take)) = call.i := rfl
      simp only [List.length_nil] at htotal ⊢
      omega

theorem Held.reverse {op : ℕ} (h : Held q sets waiting w old rev new uncounted)
    (hc : q.pc c = .resume call (.reverse op)) :
    ∃ w old rev, Held (q.reverse c call op) sets waiting w old rev new uncounted := by
  obtain rfl := h.call_eq hc Stage.noConfusion
  have hloop := h.loop call (.reverse op) rfl
  have hw := dequeue_eq hc Stage.noConfusion
  have hturn := hloop.turn Stage.noConfusion Stage.noConfusion
  have hlists := h.lists
  obtain ⟨rest, rfl, -⟩ := hlists.moving.exists_cons
  have hreverse := hlists.reverse
  have htotal := h.total
  have hturns : turns (some (call, Stage.reverse op)) = call.i := rfl
  rw [hturns, List.length_cons] at htotal
  have htotal' : (op :: old).length + rest.length + new.length + call.i =
      waiting + uncounted.card := by
    rw [List.length_cons]
    omega
  have hmoved : ∀ stage, stage ≠ .take → stage ≠ .subtract →
      Loop (some op) q.taken sets waiting call stage := fun stage htake hne =>
    { hloop with
      turn := fun _ _ => hturn
      full := fun heq => absurd heq hne
      take := fun heq => absurd heq htake
      pop := fun _ => Option.some_ne_none op }
  unfold WaiterQueue.State.reverse
  cases hnext : q.next op with
  | none =>
    rw [hnext] at hreverse
    exact ⟨_, op :: old, rest, held_advance h.word h.places h.alone hc hw rfl Stage.noConfusion
      (hmoved .pop Stage.noConfusion Stage.noConfusion) hreverse htotal'⟩
  | some op' =>
    rw [hnext] at hreverse
    exact ⟨_, op :: old, rest, held_advance h.word h.places h.alone hc hw rfl Stage.noConfusion
      (hmoved (.reverse op') Stage.noConfusion Stage.noConfusion) hreverse htotal'⟩

/-- The waiter at the front was taken, and is in the list to resume. -/
theorem held_popped {op a : ℕ} {next : ℕ → Option ℕ} (hword : Word q.state sets waiting)
    (hplaces : Places q.pc q.pushed uncounted) (halone : Alone q.pc (some (call, .pop)))
    (hc : q.pc c = .resume call .pop) (hloop : Loop q.waiters q.taken sets waiting call .pop)
    (hlists : Lists next (q.next op) q.newWaiters none q.pushed (q.taken ++ [op]) old rev new)
    (htotal : old.length + 1 + rev.length + new.length + call.i = waiting + uncounted.card)
    (ha : a ∈ q.taken ++ [op]) :
    ∃ w, Held (WaiterQueue.State.goto { q with
      waiters := q.next op, taken := q.taken ++ [op], next := next } c
      (.resume { call with
        waitersToResume := some a, waitersToResumeEnd := .next a, i := call.i + 1 } .pick))
      sets waiting w old rev new uncounted := by
  have hturn := hloop.turn Stage.noConfusion Stage.noConfusion
  refine ⟨_, held_advance hword hplaces halone hc (dequeue_eq hc Stage.noConfusion) rfl
    Stage.noConfusion ?_ hlists ?_⟩
  · constructor
    · exact hloop.pos
    · exact hloop.sets
    · exact hloop.waiting
    · exact hturn
    · exact fun hne => absurd rfl hne
    · exact Stage.noConfusion
    · exact Stage.noConfusion
    · exact Stage.noConfusion
    · exact fun _ => Option.some_ne_none a
    · rintro _ ⟨⟩
      exact ha
    · rintro _ ⟨⟩
      exact ⟨ha, Option.some_ne_none a⟩
  · show old.length + rev.length + new.length + (call.i + 1) = _
    omega

theorem Held.pop (h : Held q sets waiting w old rev new uncounted)
    (hc : q.pc c = .resume call .pop) :
    ∃ w old, Held (q.pop c call) sets waiting w old rev new uncounted := by
  obtain rfl := h.call_eq hc Stage.noConfusion
  have hloop := h.loop call .pop rfl
  have hlists := h.lists
  unfold WaiterQueue.State.pop
  cases hwaiters : q.waiters with
  | none => exact absurd hwaiters (hloop.pop rfl)
  | some op =>
    obtain ⟨suspending, waitersToResume, waitersToResumeEnd, count, i⟩ := call
    cases waitersToResume with
    | none => exact ⟨_, old, h.crash⟩
    | some first =>
      rw [hwaiters] at hlists
      obtain ⟨rest, rfl, -⟩ := hlists.waiters.exists_cons
      have htotal := h.total
      have hfirst := List.mem_append_left [op] (hloop.head first rfl)
      have hpop := hlists.pop.link_taken hfirst none
      cases waitersToResumeEnd with
      | waitersToResume =>
        obtain ⟨w, hheld⟩ := held_popped h.word h.places h.alone hc hloop hpop htotal
          (List.mem_append_right _ List.mem_cons_self)
        exact ⟨w, rest, hheld⟩
      | next e =>
        have he := List.mem_append_left [op] (hloop.slot e rfl).1
        obtain ⟨w, hheld⟩ := held_popped h.word h.places h.alone hc hloop
          (hpop.link_taken he (some op)) htotal hfirst
        exact ⟨w, rest, hheld⟩

theorem Held.popLost (h : Held q sets waiting w old rev new uncounted)
    (hc : q.pc c = .resume call .pop) (hnull : call.waitersToResume = none) :
    ∃ w old, Held (popLost q c call) sets waiting w old rev new uncounted := by
  obtain rfl := h.call_eq hc Stage.noConfusion
  have hloop := h.loop call .pop rfl
  have hlists := h.lists
  unfold Resumer.popLost
  cases hwaiters : q.waiters with
  | none => exact absurd hwaiters (hloop.pop rfl)
  | some op =>
    obtain ⟨suspending, waitersToResume, waitersToResumeEnd, count, i⟩ := call
    cases waitersToResume with
    | some first => cases hnull
    | none =>
      rw [hwaiters] at hlists
      obtain ⟨rest, rfl, -⟩ := hlists.waiters.exists_cons
      cases waitersToResumeEnd with
      | waitersToResume =>
        obtain ⟨w, hheld⟩ := held_popped h.word h.places h.alone hc hloop hlists.pop h.total
          (List.mem_append_right _ List.mem_cons_self)
        exact ⟨w, rest, hheld⟩
      | next e => exact absurd rfl (hloop.slot e rfl).2

/-- There are more waiters to take after the `fetch_sub`. -/
theorem held_again {more : ℕ} (hword : Word state sets' n)
    (hplaces : Places q.pc q.pushed uncounted) (halone : Alone q.pc (some (call, .subtract)))
    (hc : q.pc c = .resume call .subtract)
    (hloop : Loop q.waiters q.taken sets waiting call .subtract)
    (hlists : Lists q.next q.waiters q.newWaiters none q.pushed q.taken old rev new)
    (htotal : old.length + rev.length + new.length + 0 = n + uncounted.card)
    (hany : call.waitersToResume ≠ none) (hpos : 0 < more) (hsets : more ≤ sets') (hn : more ≤ n)
    (subtracted : ℕ) :
    Held (WaiterQueue.State.goto { q with state, subtracted } c
      (.resume { call with waitersToResumeCount := more, i := 0 } .pick)) sets' n
      (some ({ call with waitersToResumeCount := more, i := 0 }, .pick)) old rev new uncounted :=
  held_advance (q := { q with state, subtracted }) hword hplaces halone hc
    (dequeue_eq hc Stage.noConfusion) rfl Stage.noConfusion
    { pos := hpos
      sets := hsets
      waiting := hn
      bound := Nat.zero_le more
      turn := fun hne => absurd rfl hne
      full := Stage.noConfusion
      take := Stage.noConfusion
      pop := Stage.noConfusion
      any := fun _ => hany
      head := hloop.head
      slot := hloop.slot } hlists htotal

/-- There are no more, and the loop is left. -/
theorem held_left (hword : Word state sets' n) (hplaces : Places q.pc q.pushed uncounted)
    (halone : Alone q.pc (some (call, .subtract))) (hc : q.pc c = .resume call .subtract)
    (hlists : Lists q.next q.waiters q.newWaiters none q.pushed q.taken old rev new)
    (htotal : old.length + rev.length + new.length + 0 = n + uncounted.card) (subtracted : ℕ) :
    Held (WaiterQueue.State.goto { q with state, subtracted } c (.resume call .drop)) sets' n none
      old rev new uncounted where
  word := hword
  places := by
    have hfresh : Fresh (.resume call .drop) → Fresh (q.pc c) := by
      rw [hc]
      exact id
    have hgoto : Places (Function.update q.pc c (.resume call .drop)) q.pushed
        (uncounted.erase c) := hplaces.goto trivial hfresh Pc.noConfusion
    rw [hplaces.erase (ne_count hc Pc.noConfusion)] at hgoto
    exact hgoto
  alone := halone.move (dequeue_eq hc Stage.noConfusion)
  loop _ _ hw := absurd hw.symm (Option.some_ne_none _)
  lists := hlists
  total := htotal

/-- The `fetch_sub`: what was taken is subtracted from both counters. -/
theorem Held.subtract (h : Held q sets waiting w old rev new uncounted)
    (hc : q.pc c = .resume call .subtract) :
    ∃ w, Held (q.subtract c call) (sets - call.waitersToResumeCount)
      (waiting - call.waitersToResumeCount) w old rev new uncounted := by
  obtain rfl := h.call_eq hc Stage.noConfusion
  have hloop := h.loop call .subtract rfl
  have hw := dequeue_eq hc Stage.noConfusion
  have hpos := hloop.pos
  have hwaiting := hloop.waiting
  have hfull := hloop.full rfl
  have hword := h.word.subtract hloop.sets hwaiting
  have hany : call.waitersToResume ≠ none := hloop.any (by omega)
  have htotal := h.total
  have hturns : turns (some (call, Stage.subtract)) = call.i := rfl
  have htotal' : old.length + rev.length + new.length + 0 =
      waiting - call.waitersToResumeCount + uncounted.card := by omega
  unfold WaiterQueue.State.subtract
  simp only
  generalize (q.state + 2 ^ 64 - (call.waitersToResumeCount + call.waitersToResumeCount * 2 ^ 32) %
    2 ^ 64) % 2 ^ 64 = newState at hword ⊢
  have hcount : get_resumable_waiter_count newState =
      min (waiting - call.waitersToResumeCount) (sets - call.waitersToResumeCount) := by
    unfold AutoReset.get_resumable_waiter_count
    rw [hword.set_count, hword.waiter_count]
  rw [hcount, if_neg hany]
  split_ifs with hmore
  · exact ⟨_, held_again hword h.places h.alone hc hloop h.lists htotal' hany hmore
      (Nat.min_le_right _ _) (Nat.min_le_left _ _) _⟩
  · exact ⟨none, held_left hword h.places h.alone hc h.lists htotal' _⟩

end Held

section Steps
variable {s t : State} {q : WaiterQueue.State} {initiallySet : Bool} {sets waiting c : ℕ}
  {w : Option (Call × Stage)} {old rev new : List ℕ} {uncounted : Finset ℕ} {call : Call}
  {stage : Stage}

/-- Some counters, lists and calls account for the queue. -/
def Accounted (q : WaiterQueue.State) : Prop :=
  ∃ sets waiting w old rev new uncounted, Held q sets waiting w old rev new uncounted

theorem Held.resume (h : Held q sets waiting w old rev new uncounted)
    (hc : q.pc c = .resume call stage) : Accounted (q.resumeStep c call stage) := by
  unfold WaiterQueue.State.resumeStep
  cases stage with
  | pick =>
    obtain ⟨w, hheld⟩ := h.pick hc
    exact ⟨_, _, w, _, _, _, _, hheld⟩
  | take =>
    obtain ⟨w, rev, new, hheld⟩ := h.take hc
    exact ⟨_, _, w, _, rev, new, _, hheld⟩
  | reverse op =>
    obtain ⟨w, old, rev, hheld⟩ := h.reverse hc
    exact ⟨_, _, w, old, rev, _, _, hheld⟩
  | pop =>
    obtain ⟨w, old, hheld⟩ := h.pop hc
    exact ⟨_, _, w, old, _, _, _, hheld⟩
  | subtract =>
    obtain ⟨w, hheld⟩ := h.subtract hc
    exact ⟨_, _, w, _, _, _, _, hheld⟩
  | drop => exact ⟨_, _, _, _, _, _, _, h.drop hc⟩

theorem Held.step {q' : WaiterQueue.State} {a : WaiterQueue.Act}
    (h : Held q sets waiting w old rev new uncounted)
    (hfew : ∀ c spurious, a = .step c spurious → q.pc c = .count →
      get_waiter_count q.state + 1 < 2 ^ 32 - 1)
    (hs : WaiterQueue.Step q a q') : Accounted q' := by
  cases hs with
  | awaitSuspend hc =>
    exact ⟨_, _, _, _, _, _, _, h.goto rfl trivial (fun _ => fresh_of hc trivial) Pc.noConfusion
      (ne_count hc Pc.noConfusion)⟩
  | set hc => exact ⟨_, _, _, _, _, _, _, h.setLoop (fresh_of hc trivial) (ne_count hc Pc.noConfusion)⟩
  | reset hc =>
    exact ⟨_, _, _, _, _, _, _, h.resetLoop (fresh_of hc trivial) (ne_count hc Pc.noConfusion)⟩
  | load hc =>
    exact ⟨_, _, _, _, _, _, _, h.goto rfl trivial (fun _ => fresh_of hc trivial) Pc.noConfusion
      (ne_count hc Pc.noConfusion)⟩
  | push hc =>
    obtain ⟨new, uncounted, hheld⟩ := h.push hc
    exact ⟨_, _, _, _, _, new, uncounted, hheld⟩
  | count hc =>
    obtain ⟨waiting, w, uncounted, hheld⟩ := h.count hc (hfew _ _ rfl hc)
    exact ⟨_, waiting, w, _, _, _, uncounted, hheld⟩
  | release hc => exact ⟨_, _, _, _, _, _, _, h.release hc⟩
  | setCas hc =>
    obtain ⟨sets, w, hheld⟩ := h.setCas hc
    exact ⟨sets, _, w, _, _, _, _, hheld⟩
  | resetCas hc =>
    obtain ⟨sets, hheld⟩ := h.resetCas hc
    exact ⟨sets, _, _, _, _, _, _, hheld⟩
  | resume hc => exact h.resume hc

/-- The fast path takes what nobody in the loop will subtract. -/
theorem Inv.acquire {oldState : ℕ} (h : Inv s) (hc : s.acquiring c = some oldState) :
    Inv (s.acquire c oldState) := by
  obtain ⟨sets, waiting, w, old, rev, new, uncounted, hheld⟩ := h.held
  have hacquiring : ∀ d old, Function.update s.acquiring c none d = some old →
      get_set_count old > get_waiter_count old := by
    apply (Function.forall_update_iff s.acquiring fun _ o => ∀ old, o = some old →
      get_set_count old > get_waiter_count old).mpr
    constructor
    · exact fun old hold => absurd hold.symm (Option.some_ne_none old)
    · exact fun d _ => h.acquiring d
  unfold State.acquire
  simp only
  split_ifs with hstate
  · subst hstate
    have hlt : waiting < sets := by
      have htest := h.acquiring c _ hc
      rw [hheld.word.set_count, hheld.word.waiter_count] at htest
      exact htest
    have hstore := hheld.store (hheld.word.reset hlt) (.inr (Nat.le_pred_of_lt hlt))
    exact ⟨hacquiring, sets - 1, waiting, w, old, rev, new, uncounted, hstore⟩
  · exact ⟨hacquiring, h.held⟩

theorem Inv.coAwait (h : Inv s) : Inv (s.coAwait c) := by
  unfold State.coAwait
  split_ifs with htest
  · refine ⟨?_, h.held⟩
    apply (Function.forall_update_iff s.acquiring fun _ o => ∀ old, o = some old →
      get_set_count old > get_waiter_count old).mpr
    constructor
    · rintro old ⟨⟩
      exact htest
    · exact fun d _ => h.acquiring d
  · exact h

theorem Inv.step {a : Act} (h : Inv s) (hfew : Few s a) (hn : next s a = some t) : Inv t := by
  obtain ⟨sets, waiting, w, old, rev, new, uncounted, hheld⟩ := h.held
  cases a with
  | queue a =>
    obtain ⟨q, hq, rfl⟩ := Option.map_eq_some_iff.mp hn
    refine ⟨h.acquiring, hheld.step ?_ (step_of_next hq)⟩
    rintro c spurious rfl hc
    exact hfew hc
  | lost c =>
    obtain ⟨-, hn⟩ := Option.ite_none_left_eq_some.mp hn
    cases hc : s.queue.pc c with
    | resume call stage =>
      rw [hc] at hn
      cases stage with
      | pop =>
        obtain ⟨hnull, hn⟩ := Option.ite_none_right_eq_some.mp hn
        obtain rfl := Option.some.inj hn
        obtain ⟨w, old, hlost⟩ := hheld.popLost hc hnull
        exact ⟨h.acquiring, sets, waiting, w, old, rev, new, uncounted, hlost⟩
      | _ => cases hn
    | _ =>
      rw [hc] at hn
      cases hn
  | coAwait c =>
    obtain ⟨-, hn⟩ := Option.ite_none_left_eq_some.mp hn
    obtain ⟨-, hn⟩ := Option.ite_none_right_eq_some.mp hn
    obtain rfl := Option.some.inj hn
    exact h.coAwait
  | acquire c =>
    obtain ⟨-, hn⟩ := Option.ite_none_left_eq_some.mp hn
    cases hc : s.acquiring c with
    | none =>
      rw [hc] at hn
      cases hn
    | some oldState =>
      rw [hc] at hn
      obtain rfl := Option.some.inj hn
      exact h.acquire hc

theorem inv_start : Inv (.start initiallySet) := by
  have hword : Word (if initiallySet then SET_INCREMENT else 0) initiallySet.toNat 0 := by
    cases initiallySet with
    | true => exact ⟨rfl, Nat.le_refl 1, by omega⟩
    | false => exact ⟨rfl, Nat.zero_le 1, by omega⟩
  refine ⟨fun _ _ hold => absurd hold.symm (Option.some_ne_none _), initiallySet.toNat, 0, none, [],
    [], [], ∅, hword, ?_, ?_, ?_, ?_, rfl⟩
  · refine ⟨fun _ => trivial, fun _ _ => List.not_mem_nil, fun c => ?_⟩
    exact iff_of_false (Finset.notMem_empty c) Pc.noConfusion
  · exact ⟨fun _ _ hc => Bool.noConfusion hc, fun _ _ hc => absurd hc.symm (Option.some_ne_none _)⟩
  · exact fun _ _ hw => absurd hw.symm (Option.some_ne_none _)
  · exact ⟨rfl, rfl, rfl, List.nodup_nil, fun _ hop => absurd hop List.not_mem_nil,
      fun _ hop => absurd hop List.not_mem_nil⟩

theorem inv_of_few (hs : (system initiallySet).ReachableBy Few s) : Inv s := by
  have hind : (system initiallySet).Inductive Few Inv :=
    ⟨fun s hs => hs ▸ inv_start, fun s a t h hok hn => h.step hok hn⟩
  exact hind.holds hs

theorem Held.nonempty (h : Held q sets waiting w old rev new uncounted)
    (hmoving : moving w = none) (hturns : turns w < waiting) :
    q.waiters ≠ none ∨ q.newWaiters ≠ none := by
  by_contra hnone
  obtain ⟨hwaiters, hnew⟩ := not_or.mp hnone
  have hlists := h.lists
  rw [not_not.mp hwaiters, not_not.mp hnew, hmoving] at hlists
  have htotal := h.total
  rw [chain_none.mp hlists.waiters, chain_none.mp hlists.moving,
    chain_none.mp hlists.newWaiters] at htotal
  simp only [List.length_nil] at htotal
  omega

/-- Each half of the word covers what is subtracted from it. -/
theorem Held.borrow {a : Act} {x y : ℕ} (h : Held s.queue sets waiting w old rev new uncounted)
    (hacquiring : ∀ c oldState, s.acquiring c = some oldState →
      get_set_count oldState > get_waiter_count oldState)
    (hsub : Subtracts s a x y) (hn : next s a = some t) :
    ∃ sets' waiting', Word t.queue.state sets' waiting' ∧ sets' + x = sets ∧
      waiting' + y = waiting := by
  have hsets := h.word.set_count
  have hwaiting := h.word.waiter_count
  have hreset : ∀ old, s.queue.state = old → get_set_count old > get_waiter_count old →
      waiting < sets := by
    rintro _ rfl hlt
    rw [hsets, hwaiting] at hlt
    exact hlt
  cases hsub with
  | @reset c oldState hc hstate =>
    obtain ⟨q, hq, rfl⟩ := Option.map_eq_some_iff.mp hn
    obtain ⟨-, hq⟩ := Option.ite_none_left_eq_some.mp hq
    simp only [hc] at hq
    have hloaded := h.places.loaded c
    rw [hc] at hloaded
    have hlt := hreset oldState hstate hloaded
    subst hstate
    refine ⟨sets - 1, waiting, ?_, by omega, rfl⟩
    rw [← Option.some.inj hq, WaiterQueue.State.resetCas, if_neg (by simp)]
    exact h.word.reset hlt
  | @acquire c oldState hc hstate =>
    obtain ⟨-, hn⟩ := Option.ite_none_left_eq_some.mp hn
    simp only [hc] at hn
    have hlt := hreset oldState hstate (hacquiring c oldState hc)
    subst hstate
    refine ⟨sets - 1, waiting, ?_, by omega, rfl⟩
    rw [← Option.some.inj hn, State.acquire]
    simp only [if_true]
    exact h.word.reset hlt
  | @resume c call spurious hc =>
    obtain ⟨q, hq, rfl⟩ := Option.map_eq_some_iff.mp hn
    obtain ⟨-, hq⟩ := Option.ite_none_left_eq_some.mp hq
    simp only [hc] at hq
    have hloop := h.loop call .subtract (h.call_eq hc Stage.noConfusion)
    obtain ⟨w, hheld⟩ := h.subtract hc
    refine ⟨_, _, ?_, Nat.sub_add_cancel hloop.sets, Nat.sub_add_cancel hloop.waiting⟩
    rw [← Option.some.inj hq]
    exact hheld.word

theorem Inv.sound (h : Inv s) : Sound s := by
  obtain ⟨sets, waiting, w, old, rev, new, uncounted, hheld⟩ := h.held
  have hsets := hheld.word.set_count
  have hwaiting := hheld.word.waiter_count
  constructor
  · exact hheld.alone.one
  · rw [hsets, hwaiting]
    exact hheld.word.sets
  · intro a x y t hsub hn
    obtain ⟨sets', waiting', hword, hx, hy⟩ := hheld.borrow h.acquiring hsub hn
    rw [hword.set_count, hword.waiter_count, hsets, hwaiting]
    exact ⟨hx, hy⟩
  · intro c call hc hi
    obtain rfl := hheld.call_eq hc Stage.noConfusion
    exact hheld.nonempty rfl (Nat.lt_of_lt_of_le hi (hheld.loop call .pick rfl).waiting)
  · intro c call hc
    obtain rfl := hheld.call_eq hc Stage.noConfusion
    have hloop := hheld.loop call .take rfl
    have hturn := hloop.turn Stage.noConfusion Stage.noConfusion
    have hany := hheld.nonempty rfl (Nat.lt_of_lt_of_le hturn hloop.waiting)
    exact hany.resolve_left (not_not.mpr (hloop.take rfl))
  · intro c call hc
    obtain rfl := hheld.call_eq hc Stage.noConfusion
    exact (hheld.loop call .pop rfl).pop rfl

end Steps

/-- One thread at a time takes waiters off the lists, which are not empty then, and neither counter
borrows from the other. -/
theorem sound_of_few (initiallySet : Bool) (s : State)
    (hs : (system initiallySet).ReachableBy Few s) : Sound s :=
  (inv_of_few hs).sound

/-- Passes the steps that meet `Few`. -/
def few (s : State) : Act → Bool
  | .queue (.step c _) => s.queue.pc c ≠ .count || get_waiter_count s.queue.state + 1 < 2 ^ 32 - 1
  | _ => true

theorem few_sound (s : State) (a : Act) (h : few s a = true) : Few s a := by
  match a with
  | .queue (.step c spurious) =>
    intro hc
    simpa [few, hc] using h
  | .queue (.awaitSuspend c) => trivial
  | .queue (.set c) => trivial
  | .queue (.reset c) => trivial
  | .lost c => trivial
  | .coAwait c => trivial
  | .acquire c => trivial

/-- A waiter is taken off the lists and subtracted. -/
def takeOne : List Act :=
  [.queue (.awaitSuspend 1), .queue (.step 1 false), .queue (.step 1 false),
    .queue (.step 1 false), .queue (.set 0), .queue (.step 0 false), .queue (.step 0 false),
    .queue (.step 0 false), .queue (.step 0 false), .lost 0, .queue (.step 0 false),
    .queue (.step 0 false)]

theorem sound_of_few_one : ∃ s, (system false).ReachableBy Few s ∧ s.queue.taken = [1] ∧
    s.queue.state = 0 ∧ Sound s := by
  obtain ⟨s, hs, hend⟩ := (system false).exists_reachableBy_of_runIf few takeOne
    (fun s => s.queue.taken = [1] && s.queue.state = 0) few_sound rfl (by decide)
  rw [Bool.and_eq_true] at hend
  exact ⟨s, hs, of_decide_eq_true hend.1, of_decide_eq_true hend.2, sound_of_few false s hs⟩

section Unawaited
variable {s t : AutoReset.State} {r : State} {c : ℕ} {initiallySet : Bool}

/-- Where a thread is in both models, while no operation is awaited. -/
def At : AutoReset.Pc → WaiterQueue.Pc → Option ℕ → Prop
  | .out, pc, acquiring => pc = .out ∧ acquiring = none
  | .acquire oldState, pc, acquiring => pc = .out ∧ acquiring = some oldState
  | .set oldState, pc, acquiring => pc = .set oldState ∧ acquiring = none
  | .reset oldState, pc, acquiring => pc = .reset oldState ∧ acquiring = none
  | _, _, _ => False

/-- The same event in both models. -/
structure Same (s : AutoReset.State) (r : State) : Prop where
  state : r.queue.state = s.state
  newWaiters : r.queue.newWaiters = s.newWaiters
  waiters : r.queue.waiters = s.waiters
  safe : r.queue.crashed = false
  pc : ∀ c, At (s.pc c) (r.queue.pc c) (r.acquiring c)

/-- A thread goes to the same place in both models. -/
theorem Same.goto (h : Same s r) {pc : AutoReset.Pc} {pc' : WaiterQueue.Pc}
    (hc : At pc pc' (r.acquiring c)) :
    Same (s.goto c pc) { r with queue := r.queue.goto c pc' } where
  state := h.state
  newWaiters := h.newWaiters
  waiters := h.waiters
  safe := h.safe
  pc d := by
    by_cases hd : d = c
    · subst hd
      simpa [AutoReset.State.goto, WaiterQueue.State.goto] using hc
    · simpa [AutoReset.State.goto, WaiterQueue.State.goto, hd] using h.pc d

/-- A call of `operator co_await` goes on or ends. -/
theorem Same.acquiring (h : Same s r) {pc : AutoReset.Pc} {acquiring : Option ℕ}
    (hc : At pc (r.queue.pc c) acquiring) :
    Same (s.goto c pc) { r with acquiring := Function.update r.acquiring c acquiring } where
  state := h.state
  newWaiters := h.newWaiters
  waiters := h.waiters
  safe := h.safe
  pc d := by
    by_cases hd : d = c
    · subst hd
      simpa [AutoReset.State.goto] using hc
    · simpa [AutoReset.State.goto, hd] using h.pc d

theorem Same.store (h : Same s r) (state sets : ℕ) : Same { s with state, sets }
    { r with queue := { r.queue with state } } :=
  ⟨rfl, h.newWaiters, h.waiters, h.safe, h.pc⟩

theorem Same.operation (h : Same s r) (hc : r.queue.pc c = .out) :
    Same (s.operation c false) { r with acquiring := Function.update r.acquiring c none } := by
  unfold AutoReset.State.operation AutoReset.State.complete
  apply Same.acquiring
  · exact ⟨h.state, h.newWaiters, h.waiters, h.safe, h.pc⟩
  · exact ⟨hc, rfl⟩

theorem Same.coAwait (h : Same s r) (hc : s.pc c = .out) : Same (s.coAwait c) (r.coAwait c) := by
  have hout : At .out (r.queue.pc c) (r.acquiring c) := hc ▸ h.pc c
  unfold AutoReset.State.coAwait State.coAwait
  rw [h.state]
  by_cases ha : get_set_count s.state > get_waiter_count s.state
  · have ha' : AutoReset.State.available s.state := ha
    rw [if_pos ha', if_pos ha]
    apply Same.acquiring
    · exact ⟨h.state, h.newWaiters, h.waiters, h.safe, h.pc⟩
    · exact ⟨hout.1, rfl⟩
  · have ha' : ¬AutoReset.State.available s.state := ha
    rw [if_neg ha', if_neg ha]
    have hsame := Same.operation (s := { s with madeAt := Function.update s.madeAt c (some s.sets) })
      ⟨h.state, h.newWaiters, h.waiters, h.safe, h.pc⟩ hout.1
    rwa [← hout.2, Function.update_eq_self] at hsame

theorem Same.acquire (h : Same s r) {oldState : ℕ} (hc : r.queue.pc c = .out) :
    Same (s.acquire c oldState) (r.acquire c oldState) := by
  unfold AutoReset.State.acquire State.acquire
  rw [h.state]
  by_cases heq : s.state = oldState
  · rw [if_pos heq, if_pos heq]
    generalize (oldState + 2 ^ 64 - SET_INCREMENT) % 2 ^ 64 = newState
    exact (h.store newState s.sets).operation hc
  · rw [if_neg heq, if_neg heq]
    exact h.operation hc

theorem Same.setLoop (h : Same s r) (hc : r.acquiring c = none) :
    Same (s.setLoop c s.state) { r with queue := r.queue.setLoop c s.state } := by
  unfold AutoReset.State.setLoop WaiterQueue.State.setLoop
  by_cases ha : get_set_count s.state > get_waiter_count s.state
  · have ha' : AutoReset.State.available s.state := ha
    rw [if_pos ha', if_pos ha]
    apply Same.goto
    · exact ⟨h.state, h.newWaiters, h.waiters, h.safe, h.pc⟩
    · exact ⟨rfl, hc⟩
  · have ha' : ¬AutoReset.State.available s.state := ha
    rw [if_neg ha', if_neg ha]
    exact h.goto ⟨rfl, hc⟩

theorem Same.resetLoop (h : Same s r) (hc : r.acquiring c = none) :
    Same (s.resetLoop c s.state) { r with queue := r.queue.resetLoop c s.state } := by
  unfold AutoReset.State.resetLoop WaiterQueue.State.resetLoop
  by_cases ha : get_set_count s.state > get_waiter_count s.state
  · have ha' : AutoReset.State.available s.state := ha
    rw [if_pos ha', if_pos ha]
    exact h.goto ⟨rfl, hc⟩
  · have ha' : ¬AutoReset.State.available s.state := ha
    rw [if_neg ha', if_neg ha]
    exact h.goto ⟨rfl, hc⟩

/-- No waiters are resumed by a `set` that has read zero. -/
theorem Same.setCas (h : Same s r) (hc : r.acquiring c = none) (spurious : Bool) :
    Same (s.setCas c 0 spurious) { r with queue := r.queue.setCas c 0 spurious } := by
  have hnone : ¬((0 : ℕ) ≠ 0 ∧ get_set_count 0 = 0) := fun hres => hres.1 rfl
  unfold AutoReset.State.setCas WaiterQueue.State.setCas
  rw [h.state]
  by_cases hfail : spurious = true ∨ s.state ≠ 0
  · rw [if_pos hfail, if_pos hfail]
    exact h.setLoop hc
  · rw [if_neg hfail, if_neg hfail, if_neg hnone, if_neg hnone]
    generalize (0 + SET_INCREMENT) % 2 ^ 64 = newState
    exact (h.store newState (s.sets + 1)).goto ⟨rfl, hc⟩

theorem Same.resetCas (h : Same s r) (hc : r.acquiring c = none) (oldState : ℕ) (spurious : Bool) :
    Same (s.resetCas c oldState spurious)
      { r with queue := r.queue.resetCas c oldState spurious } := by
  unfold AutoReset.State.resetCas WaiterQueue.State.resetCas
  rw [h.state]
  by_cases hfail : spurious = true ∨ s.state ≠ oldState
  · rw [if_pos hfail, if_pos hfail]
    exact h.resetLoop hc
  · rw [if_neg hfail, if_neg hfail]
    generalize (oldState + 2 ^ 64 - SET_INCREMENT) % 2 ^ 64 = newState
    exact (h.store newState s.sets).goto ⟨rfl, hc⟩

theorem next_queue {a : WaiterQueue.Act} {q : WaiterQueue.State}
    (hq : WaiterQueue.next r.queue a = some q) : next r (.queue a) = some { r with queue := q } := by
  rw [next, hq]
  rfl

theorem Same.step (h : Same s r) (hidle : AutoReset.Idle s) {a : AutoReset.Act}
    (hn : AutoReset.next s a = some t) : ∃ b u, next r b = some u ∧ Same t u := by
  have hsafe : ¬r.queue.crashed = true := by
    rw [h.safe]
    exact Bool.false_ne_true
  cases a with
  | coAwait c =>
    obtain ⟨hc, hn⟩ := Option.ite_none_right_eq_some.mp hn
    have hout : At .out (r.queue.pc c) (r.acquiring c) := hc ▸ h.pc c
    refine ⟨.coAwait c, r.coAwait c, ?_, Option.some.inj hn ▸ h.coAwait hc⟩
    rw [next, if_neg hsafe, if_pos hout.2]
  | set c =>
    obtain ⟨hc, hn⟩ := Option.ite_none_right_eq_some.mp hn
    have hout : At .out (r.queue.pc c) (r.acquiring c) := hc ▸ h.pc c
    refine ⟨.queue (.set c), _, next_queue ?_, Option.some.inj hn ▸ h.setLoop hout.2⟩
    simp only [WaiterQueue.next, if_neg hsafe, if_pos hout.1, h.state]
  | reset c =>
    obtain ⟨hc, hn⟩ := Option.ite_none_right_eq_some.mp hn
    have hout : At .out (r.queue.pc c) (r.acquiring c) := hc ▸ h.pc c
    refine ⟨.queue (.reset c), _, next_queue ?_, Option.some.inj hn ▸ h.resetLoop hout.2⟩
    simp only [WaiterQueue.next, if_neg hsafe, if_pos hout.1, h.state]
  | step c spurious =>
    obtain ⟨old, hc, hold, rfl⟩ | ⟨old, hc, hold, rfl⟩ | ⟨old, hc, hold, rfl⟩ :=
      hidle.step_cases hn
    · have hat : At (.acquire old) (r.queue.pc c) (r.acquiring c) := hc ▸ h.pc c
      refine ⟨.acquire c, r.acquire c old, ?_, h.acquire hat.1⟩
      simp only [next, if_neg hsafe, hat.2]
    · have hat : At (.set old) (r.queue.pc c) (r.acquiring c) := hc ▸ h.pc c
      subst hold
      refine ⟨.queue (.step c spurious), _, next_queue ?_, h.setCas hat.2 spurious⟩
      simp only [WaiterQueue.next, if_neg hsafe, hat.1]
    · have hat : At (.reset old) (r.queue.pc c) (r.acquiring c) := hc ▸ h.pc c
      refine ⟨.queue (.step c spurious), _, next_queue ?_, h.resetCas hat.2 old spurious⟩
      simp only [WaiterQueue.next, if_neg hsafe, hat.1]

/-- Every run of an event is one of this system, in which no operation is awaited. -/
theorem exists_same (hs : (AutoReset.system initiallySet).Reachable s) :
    ∃ r, (system initiallySet).Reachable r ∧ Same s r := by
  refine hs.simulates (fun s h0 => ?_) fun s a t r hr h hn =>
    h.step (AutoReset.idle_of_reachable hr) hn
  obtain rfl := h0
  exact ⟨.start initiallySet, rfl, rfl, rfl, rfl, rfl, fun _ => ⟨rfl, rfl⟩⟩

end Unawaited

end Suil.Async.Resumer
