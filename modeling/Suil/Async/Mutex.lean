import Suil.Lib.Transition
import Suil.Lib.Chain

/-! `AsyncMutex`: `tryLock`, `lock_operation::await_suspend` and `unlock`. A
coroutine and the lock_operation it awaits share a number. One step is one atomic
operation, one turn of the loop that reverses a batch, or a `resume()`. -/
namespace Suil.Async.Mutex
open Transition Linked

/-- `_state`: NOT_LOCKED, LOCKED_NO_WAITERS or the address of a lock_operation. -/
inductive Word
  | notLocked
  | lockedNoWaiters
  | waiter (op : ℕ)
  deriving DecidableEq

/-- `reinterpret_cast<lock_operation*>` of a word that is not NOT_LOCKED. -/
def Word.ptr : Word → Option ℕ
  | .waiter op => some op
  | _ => none

/-- `unlock`: the first assertion, the release, the exchange, the reversal of the
batch, the pop and the `resume()` of the next waiter. -/
inductive UnlockStage
  | check
  | release
  | exchange
  | reverse (header : Option ℕ) (next : ℕ)
  | pop (header : Option ℕ)
  | resume (op : ℕ)
  deriving DecidableEq

/-- Where a coroutine is; `aborted` is a failed assertion. -/
inductive Pc
  | out
  | load
  | loop (oldState : Word)
  | suspended
  | holding
  | unlock (st : UnlockStage)
  | aborted
  deriving DecidableEq

/-- `pushed` and `resumed` are ghosts: the lock_operations in the order of their push and
in the order of their `resume()`. -/
structure State where
  state : Word
  waiters : Option ℕ
  next : ℕ → Option ℕ
  pc : ℕ → Pc
  pushed : List ℕ
  resumed : List ℕ

def State.start : State where
  state := .notLocked
  waiters := none
  next _ := none
  pc _ := .out
  pushed := []
  resumed := []

def State.goto (s : State) (c : ℕ) (pc : Pc) : State := { s with pc := Function.update s.pc c pc }

/-- The compare-exchange of `await_suspend` on the value it has read, with the write of
`_next` before it. -/
def lockCas (s : State) (c : ℕ) (oldState : Word) (spurious : Bool) : State :=
  match oldState with
  | .notLocked =>
    if spurious ∨ s.state ≠ oldState then s.goto c (.loop s.state)
    else { s with state := .lockedNoWaiters }.goto c .holding
  | _ =>
    let s := { s with next := Function.update s.next c oldState.ptr }
    if spurious ∨ s.state ≠ oldState then s.goto c (.loop s.state)
    else { s with state := .waiter c, pushed := s.pushed ++ [c] }.goto c .suspended

def unlockStep (s : State) (c : ℕ) : UnlockStage → State
  | .check =>
    if s.state = .notLocked then s.goto c .aborted
    else s.goto c (.unlock (if s.waiters = none then .release else .pop s.waiters))
  | .release =>
    if s.state = .lockedNoWaiters then { s with state := .notLocked }.goto c .out
    else s.goto c (.unlock .exchange)
  | .exchange =>
    match s.state with
    | .waiter op => { s with state := .lockedNoWaiters }.goto c (.unlock (.reverse none op))
    | _ => { s with state := .lockedNoWaiters }.goto c .aborted
  | .reverse header op =>
    { s with next := Function.update s.next op header }.goto c
      (.unlock (match s.next op with
        | some tmp => .reverse (some op) tmp
        | none => .pop (some op)))
  | .pop none => s.goto c .aborted
  | .pop (some op) => { s with waiters := s.next op }.goto c (.unlock (.resume op))
  | .resume op => ({ s with resumed := s.resumed ++ [op] }.goto c .out).goto op .holding

inductive Act
  | tryLock (c : ℕ)
  | lockAsync (c : ℕ)
  | load (c : ℕ)
  | cas (c : ℕ) (spurious : Bool)
  | unlock (c : ℕ)
  | step (c : ℕ)

/-- A step of a call of `unlock`. -/
def Act.IsUnlock : Act → Prop
  | .unlock _ | .step _ => True
  | _ => False

/-- `unlock` is called by the holder only. -/
def next (s : State) : Act → Option State
  | .tryLock c =>
    if s.pc c = .out then
      some (if s.state = .notLocked then { s with state := .lockedNoWaiters }.goto c .holding else s)
    else none
  | .lockAsync c => if s.pc c = .out then some (s.goto c .load) else none
  | .load c => if s.pc c = .load then some (s.goto c (.loop s.state)) else none
  | .cas c spurious =>
    match s.pc c with
    | .loop oldState => some (lockCas s c oldState spurious)
    | _ => none
  | .unlock c => if s.pc c = .holding then some (s.goto c (.unlock .check)) else none
  | .step c =>
    match s.pc c with
    | .unlock st => some (unlockStep s c st)
    | _ => none

def system : System State Act where
  init s := s = .start
  next := next

/-- Each step with what it needs. -/
inductive Step (s : State) : Act → State → Prop
  | tryWin {c : ℕ} (hpc : s.pc c = .out) (hst : s.state = .notLocked) :
      Step s (.tryLock c) ({ s with state := .lockedNoWaiters }.goto c .holding)
  | tryLose {c : ℕ} (hpc : s.pc c = .out) (hst : s.state ≠ .notLocked) : Step s (.tryLock c) s
  | lockAsync {c : ℕ} (hpc : s.pc c = .out) : Step s (.lockAsync c) (s.goto c .load)
  | load {c : ℕ} (hpc : s.pc c = .load) : Step s (.load c) (s.goto c (.loop s.state))
  | cas {c : ℕ} {spurious : Bool} {oldState : Word} (hpc : s.pc c = .loop oldState) :
      Step s (.cas c spurious) (lockCas s c oldState spurious)
  | unlock {c : ℕ} (hpc : s.pc c = .holding) : Step s (.unlock c) (s.goto c (.unlock .check))
  | step {c : ℕ} {st : UnlockStage} (hpc : s.pc c = .unlock st) :
      Step s (.step c) (unlockStep s c st)

theorem step_of_next {s s' : State} {a : Act} (h : next s a = some s') : Step s a s' := by
  cases a with
  | tryLock c =>
    simp only [next] at h
    split_ifs at h with hpc hst
    · obtain rfl := Option.some.inj h
      exact .tryWin hpc hst
    · obtain rfl := Option.some.inj h
      exact .tryLose hpc hst
  | lockAsync c =>
    simp only [next] at h
    split_ifs at h with hpc
    obtain rfl := Option.some.inj h
    exact .lockAsync hpc
  | load c =>
    simp only [next] at h
    split_ifs at h with hpc
    obtain rfl := Option.some.inj h
    exact .load hpc
  | cas c spurious =>
    simp only [next] at h
    split at h
    · next oldState hpc =>
      obtain rfl := Option.some.inj h
      exact .cas hpc
    · cases h
  | unlock c =>
    simp only [next] at h
    split_ifs at h with hpc
    obtain rfl := Option.some.inj h
    exact .unlock hpc
  | step c =>
    simp only [next] at h
    split at h
    · next st hpc =>
      obtain rfl := Option.some.inj h
      exact .step hpc
    · cases h

/-- The coroutine holds the lock or is in `unlock`. -/
def Pc.Owns : Pc → Prop
  | .holding | .unlock _ => True
  | _ => False

/-- The lock_operations that the owner has taken from the stack and not yet resumed, in the
order in which they will be. -/
def Front (s : State) (f : List ℕ) : Pc → Prop
  | .holding | .unlock .check => Chain s.next s.waiters f
  | .unlock .release => s.waiters = none ∧ f = []
  | .unlock .exchange => s.waiters = none ∧ f = [] ∧ s.state ≠ .lockedNoWaiters
  | .unlock (.reverse header op) => s.waiters = none ∧
      ∃ done todo, Chain s.next header done ∧ Chain s.next (some op) todo ∧ f = todo.reverse ++ done
  | .unlock (.pop header) => Chain s.next header f ∧ f ≠ []
  | .unlock (.resume op) => ∃ rest, Chain s.next s.waiters rest ∧ f = op :: rest
  | _ => False

/-- `stack` is what `_state` leads to, `f` what the owner has. -/
structure Inv (s : State) (stack f : List ℕ) : Prop where
  linked : Chain s.next s.state.ptr stack
  log : s.pushed = s.resumed ++ (f ++ stack.reverse)
  nodup : (f ++ stack.reverse).Nodup
  waiting : ∀ c, c ∈ f ++ stack.reverse ↔ s.pc c = .suspended
  fine : ∀ c, s.pc c ≠ .aborted
  owner : (s.state = .notLocked ∧ s.waiters = none ∧ f = [] ∧ ∀ c, ¬ (s.pc c).Owns) ∨
    s.state ≠ .notLocked ∧ ∃ o, (∀ c, (s.pc c).Owns ↔ c = o) ∧ Front s f (s.pc o)

variable {s s' : State} {stack f : List ℕ} {c o op : ℕ} {pc : Pc} {st : UnlockStage}

@[simp] theorem goto_pc : (s.goto c pc).pc o = if o = c then pc else s.pc o := by
  simp [State.goto, Function.update_apply]

@[simp] theorem goto_next : (s.goto c pc).next = s.next := rfl
@[simp] theorem goto_state : (s.goto c pc).state = s.state := rfl
@[simp] theorem goto_waiters : (s.goto c pc).waiters = s.waiters := rfl
@[simp] theorem goto_pushed : (s.goto c pc).pushed = s.pushed := rfl
@[simp] theorem goto_resumed : (s.goto c pc).resumed = s.resumed := rfl

/-- The owner's part only depends on its own items, on `_waiters`, and on whether
the stack is empty. -/
theorem Front.congr (h : Front s f pc) (hn : ∀ a ∈ f, s'.next a = s.next a)
    (hw : s'.waiters = s.waiters)
    (hs : s.state ≠ .lockedNoWaiters → s'.state ≠ .lockedNoWaiters) : Front s' f pc := by
  unfold Front at h ⊢
  rw [hw]
  split <;> simp only at h ⊢
  · exact h.congr hn
  · exact h.congr hn
  · exact h
  · exact ⟨h.1, h.2.1, hs h.2.2⟩
  · obtain ⟨hwt, done, todo, hd, ht, rfl⟩ := h
    exact ⟨hwt, done, todo, hd.congr fun a ha => hn a (by simp [ha]),
      ht.congr fun a ha => hn a (by simp [ha]), rfl⟩
  · exact ⟨h.1.congr hn, h.2⟩
  · obtain ⟨rest, hr, rfl⟩ := h
    exact ⟨rest, hr.congr fun a ha => hn a (by simp [ha]), rfl⟩

/-- A coroutine that is neither the owner nor suspended moves, and writes at most its own
lock_operation. -/
theorem Inv.aside (h : Inv s stack f) (hpc : s'.pc = Function.update s.pc c pc)
    (hn : ∀ a, a ≠ c → s'.next a = s.next a) (hst : s'.state = s.state) (hw : s'.waiters = s.waiters)
    (hp : s'.pushed = s.pushed) (hr : s'.resumed = s.resumed)
    (hc : ¬ (s.pc c).Owns ∧ s.pc c ≠ .suspended)
    (hc' : ¬ pc.Owns ∧ pc ≠ .suspended ∧ pc ≠ .aborted) : Inv s' stack f := by
  have hnext : ∀ a ∈ f ++ stack.reverse, s'.next a = s.next a := by
    intro a ha
    refine hn a ?_
    rintro rfl
    exact hc.2 ((h.waiting a).mp ha)
  have hpc' : ∀ d, s'.pc d = if d = c then pc else s.pc d := by
    simp [hpc, Function.update_apply]
  have howns : ∀ d, (s'.pc d).Owns ↔ (s.pc d).Owns := by
    intro d
    rw [hpc']
    split_ifs with hd
    · exact iff_of_false hc'.1 (hd ▸ hc.1)
    · rfl
  refine ⟨?_, by rw [hp, hr, h.log], h.nodup, fun d => ?_, fun d => ?_, ?_⟩
  · rw [hst]
    exact h.linked.congr fun a ha => hnext a (by simp [ha])
  · rw [h.waiting, hpc']
    split_ifs with hd
    · exact iff_of_false (hd ▸ hc.2) hc'.2.1
    · rfl
  · rw [hpc']
    split_ifs
    exacts [hc'.2.2, h.fine d]
  · rw [hst, hw]
    refine h.owner.imp (fun ⟨h1, h2, h3, h4⟩ => ⟨h1, h2, h3, fun d => by rw [howns]; exact h4 d⟩) ?_
    rintro ⟨hl, o, ho, hf⟩
    have hoc : o ≠ c := by
      rintro rfl
      exact hc.1 ((ho o).mpr rfl)
    refine ⟨hl, o, fun d => by rw [howns, ho], ?_⟩
    rw [hpc', if_neg hoc]
    exact hf.congr (fun a ha => hnext a (by simp [ha])) hw (by rw [hst]; exact id)

/-- `await_suspend` or `tryLock` finds the mutex free. -/
theorem Inv.acquire (h : Inv s stack f) (hst : s.state = .notLocked)
    (hc : s.pc c ≠ .suspended) : Inv ({ s with state := .lockedNoWaiters }.goto c .holding) stack f := by
  obtain ⟨-, hw, rfl, hno⟩ := h.owner.resolve_right fun h => h.1 hst
  have hlinked := h.linked
  rw [hst] at hlinked
  obtain rfl := chain_none.mp hlinked
  refine ⟨rfl, h.log, h.nodup, fun d => ?_, fun d => ?_, .inr ⟨by simp, c, fun d => ?_, ?_⟩⟩
  · rw [h.waiting, goto_pc]
    split_ifs with hd
    · simp [hd, hc]
    · rfl
  · rw [goto_pc]
    split_ifs
    exacts [by simp, h.fine d]
  · rw [goto_pc]
    split_ifs with hd
    · simp [hd, Pc.Owns]
    · exact iff_of_false (hno d) hd
  · rw [goto_pc, if_pos rfl]
    exact hw

/-- The push of `await_suspend`. -/
theorem Inv.push (h : Inv s stack f) (hst : s.state ≠ .notLocked)
    (hc : ¬ (s.pc c).Owns ∧ s.pc c ≠ .suspended) :
    Inv ({ s with next := Function.update s.next c s.state.ptr, state := .waiter c,
                  pushed := s.pushed ++ [c] }.goto c .suspended) (c :: stack) f := by
  have hnot : c ∉ f ++ stack.reverse := fun hm => hc.2 ((h.waiting c).mp hm)
  have hnf : c ∉ f := fun hm => hnot (List.mem_append_left _ hm)
  have hns : c ∉ stack := fun hm => hnot (List.mem_append_right _ (List.mem_reverse.mpr hm))
  have hqueue : f ++ (c :: stack).reverse = f ++ stack.reverse ++ [c] := by simp
  obtain ⟨-, o, ho, hf⟩ := h.owner.resolve_left fun h => hst h.1
  refine ⟨h.linked.push hns, ?_, ?_, fun d => ?_, fun d => ?_, .inr ⟨by simp, o, fun d => ?_, ?_⟩⟩
  · simp [h.log]
  · rw [hqueue]
    exact h.nodup.append (List.nodup_singleton c) (by simpa using hnot)
  · rw [hqueue, List.mem_append, h.waiting, goto_pc, List.mem_singleton]
    split_ifs with hd
    · simp [hd]
    · simp [hd]
  · rw [goto_pc]
    split_ifs
    exacts [by simp, h.fine d]
  · rw [goto_pc]
    split_ifs with hd
    · subst hd
      exact iff_of_false (by simp [Pc.Owns]) fun he => hc.1 ((ho d).mpr he)
    · exact ho d
  · have hoc : o ≠ c := by
      rintro rfl
      exact hc.1 ((ho o).mpr rfl)
    rw [goto_pc, if_neg hoc]
    refine hf.congr (fun a ha => ?_) rfl (by simp)
    exact Function.update_of_ne (ne_of_mem_of_not_mem ha hnf) _ _

/-- What the owner sees of a step: nothing. -/
def Unseen (s s' : State) (f : List ℕ) : Prop :=
  (∀ o, (s.pc o).Owns → s'.pc o = s.pc o) ∧ ∀ a ∈ f, s'.next a = s.next a

theorem Inv.unseen (h : Inv s stack f) (hpc : s'.pc = Function.update s.pc c pc)
    (hn : ∀ a, a ≠ c → s'.next a = s.next a) (hc : ¬ (s.pc c).Owns ∧ s.pc c ≠ .suspended) :
    Unseen s s' f := by
  constructor
  · intro o ho
    have hoc : o ≠ c := by
      rintro rfl
      exact hc.1 ho
    rw [hpc, Function.update_of_ne hoc]
  · intro a ha
    refine hn a ?_
    rintro rfl
    exact hc.2 ((h.waiting a).mp (List.mem_append_left _ ha))

/-- A step of someone else: the mutex was free, or the owner keeps its part and the
stack has at most grown. -/
def Other (s s' : State) (stack f : List ℕ) : Prop :=
  (s.state = .notLocked ∧ Inv s' stack f) ∨ ∃ l, Inv s' (l ++ stack) f ∧ Unseen s s' f

theorem Inv.goto (h : Inv s stack f) (hc : ¬ (s.pc c).Owns ∧ s.pc c ≠ .suspended)
    (hpc : ¬ pc.Owns ∧ pc ≠ .suspended ∧ pc ≠ .aborted) : Other s (s.goto c pc) stack f := by
  have hn : ∀ a, a ≠ c → (s.goto c pc).next a = s.next a := fun _ _ => rfl
  exact .inr ⟨[], h.aside rfl hn rfl rfl rfl rfl hc hpc, h.unseen rfl hn hc⟩

theorem Inv.lockCas {oldState : Word} {spurious : Bool} (h : Inv s stack f)
    (hpc : s.pc c = .loop oldState) : Other s (lockCas s c oldState spurious) stack f := by
  have hc : ¬ (s.pc c).Owns ∧ s.pc c ≠ .suspended := by simp [hpc, Pc.Owns]
  have hc' : ¬ (Pc.loop s.state).Owns ∧ Pc.loop s.state ≠ .suspended ∧
      Pc.loop s.state ≠ .aborted := by simp [Pc.Owns]
  simp only [Mutex.lockCas]
  split
  · split_ifs with hfail
    · exact h.goto hc hc'
    · simp only [not_or, ne_eq, not_not] at hfail
      exact .inl ⟨hfail.2, h.acquire hfail.2 hc.2⟩
  · next hold =>
    have hn : ∀ a, a ≠ c → Function.update s.next c oldState.ptr a = s.next a :=
      fun a ha => Function.update_of_ne ha _ _
    split_ifs with hfail
    · exact .inr ⟨[], h.aside rfl hn rfl rfl rfl rfl hc hc', h.unseen rfl hn hc⟩
    · simp only [not_or, ne_eq, not_not] at hfail
      obtain ⟨-, rfl⟩ := hfail
      exact .inr ⟨[c], h.push hold hc, h.unseen rfl hn hc⟩

/-- The owner moves on without giving the lock away. -/
theorem Inv.own {stack' f' : List ℕ} (h : Inv s stack f) (hc : (s.pc c).Owns)
    (hpc : s'.pc = Function.update s.pc c pc) (hpc' : pc.Owns)
    (hp : s'.pushed = s.pushed) (hr : s'.resumed = s.resumed)
    (hqueue : f' ++ stack'.reverse = f ++ stack.reverse)
    (hlinked : Chain s'.next s'.state.ptr stack') (hst : s'.state ≠ .notLocked)
    (hf : Front s' f' pc) : Inv s' stack' f' := by
  obtain ⟨-, o, ho, -⟩ := h.owner.resolve_left fun h => h.2.2.2 c hc
  obtain rfl := (ho c).mp hc
  have hns : s.pc c ≠ .suspended := by
    intro hs
    simp [hs, Pc.Owns] at hc
  have hpd : ∀ d, s'.pc d = if d = c then pc else s.pc d := by
    simp [hpc, Function.update_apply]
  refine ⟨hlinked, by rw [hp, hr, hqueue, h.log], hqueue ▸ h.nodup, fun d => ?_, fun d => ?_,
    .inr ⟨hst, c, fun d => ?_, by rwa [hpc, Function.update_self]⟩⟩
  · rw [hqueue, h.waiting, hpd]
    split_ifs with hd
    · refine iff_of_false (hd ▸ hns) ?_
      rintro rfl
      exact hpc'
    · rfl
  · rw [hpd]
    split_ifs
    · rintro rfl
      exact hpc'
    · exact h.fine d
  · rw [hpd]
    split_ifs with hd
    · exact iff_of_true hpc' hd
    · exact ho d

/-- The last release of the lock. -/
theorem Inv.release (h : Inv s stack f) (hpc : s.pc c = .unlock .release)
    (hst : s.state = .lockedNoWaiters) : Inv ({ s with state := .notLocked }.goto c .out) stack f := by
  obtain ⟨-, o, ho, hf⟩ := h.owner.resolve_left fun h => h.2.2.2 c (by rw [hpc]; trivial)
  obtain rfl := (ho c).mp (by rw [hpc]; trivial)
  rw [hpc] at hf
  obtain ⟨hw, rfl⟩ := hf
  have hlinked := h.linked
  rw [hst] at hlinked
  refine ⟨hlinked, h.log, h.nodup, fun d => ?_, fun d => ?_, .inl ⟨rfl, hw, rfl, fun d => ?_⟩⟩
  · rw [h.waiting, goto_pc]
    split_ifs with hd
    · simp [hd, hpc]
    · rfl
  · rw [goto_pc]
    split_ifs
    exacts [by simp, h.fine d]
  · rw [goto_pc]
    split_ifs with hd
    exacts [by simp [Pc.Owns], fun hd' => hd ((ho d).mp hd')]

/-- The lock passes to the first waiter. -/
theorem Inv.resume (h : Inv s stack f) (hpc : s.pc c = .unlock (.resume op)) :
    ∃ rest, f = op :: rest ∧ s.pc op = .suspended ∧
      Inv (({ s with resumed := s.resumed ++ [op] }.goto c .out).goto op .holding) stack rest := by
  obtain ⟨hst, o, ho, hf⟩ := h.owner.resolve_left fun h => h.2.2.2 c (by rw [hpc]; trivial)
  obtain rfl := (ho c).mp (by rw [hpc]; trivial)
  rw [hpc] at hf
  obtain ⟨rest, hrest, rfl⟩ := hf
  have hop : s.pc op = .suspended := (h.waiting op).mp (by simp)
  have hne : op ≠ c := by
    rintro rfl
    cases hop.symm.trans hpc
  have hnodup : op ∉ rest ++ stack.reverse ∧ (rest ++ stack.reverse).Nodup :=
    List.nodup_cons.mp h.nodup
  refine ⟨rest, rfl, hop, h.linked, ?_, hnodup.2, fun d => ?_, fun d => ?_,
    .inr ⟨hst, op, fun d => ?_, by simpa [Front] using hrest⟩⟩
  · simp [h.log]
  · have hd := h.waiting d
    rw [List.cons_append, List.mem_cons] at hd
    rw [goto_pc, goto_pc]
    split_ifs with h1 h2
    · subst h1
      exact iff_of_false hnodup.1 (by simp)
    · subst h2
      simpa [h1, hpc] using hd
    · simpa [h1] using hd
  · rw [goto_pc, goto_pc]
    split_ifs
    exacts [by simp, by simp, h.fine d]
  · rw [goto_pc, goto_pc]
    split_ifs with h1 h2
    · exact iff_of_true trivial h1
    · exact iff_of_false (by simp [Pc.Owns]) h1
    · exact iff_of_false (fun hd => h2 ((ho d).mp hd)) h1

/-- One turn of the loop that reverses a batch. -/
theorem Inv.reverse {header : Option ℕ} {done todo : List ℕ}
    (h : Inv s stack ((op :: todo).reverse ++ done)) (hpc : s.pc c = .unlock (.reverse header op))
    (hw : s.waiters = none) (hdone : Chain s.next header done) (htodo : Chain s.next (s.next op) todo) :
    Inv (unlockStep s c (.reverse header op)) stack (todo.reverse ++ op :: done) ∧
      Chain (Function.update s.next op header) (some op) (op :: done) ∧
      Chain (Function.update s.next op header) (s.next op) todo := by
  have hqueue : (op :: todo).reverse ++ done ++ stack.reverse =
      todo.reverse ++ op :: (done ++ stack.reverse) := by simp
  have hnot := (List.nodup_cons.mp (List.nodup_middle.mp (hqueue ▸ h.nodup))).1
  obtain ⟨hot, hod, hos⟩ : op ∉ todo ∧ op ∉ done ∧ op ∉ stack := by simpa using hnot
  have hst : s.state ≠ .notLocked := by
    rcases h.owner with ⟨-, -, -, hno⟩ | ⟨hst, -⟩
    · exact absurd (by rw [hpc]; trivial) (hno c)
    · exact hst
  have hdone' := hdone.push hod
  have htodo' := htodo.update (q := header) hot
  refine ⟨?_, hdone', htodo'⟩
  rw [unlockStep]
  refine h.own (by rw [hpc]; trivial) rfl trivial rfl rfl (by simp) (h.linked.update hos) hst ?_
  split
  · next tmp htmp =>
    rw [htmp] at htodo'
    exact ⟨hw, op :: done, todo, hdone', htodo', rfl⟩
  · next hnone =>
    rw [hnone, chain_none] at htodo'
    subst htodo'
    exact ⟨hdone', by simp⟩

/-- What is known while `c` is in `unlock`. -/
theorem Inv.unlocking (h : Inv s stack f) (hpc : s.pc c = .unlock st) :
    (s.pc c).Owns ∧ s.state ≠ .notLocked ∧ Front s f (.unlock st) := by
  have hc : (s.pc c).Owns := by
    rw [hpc]
    trivial
  obtain ⟨hst, o, ho, hf⟩ := h.owner.resolve_left fun h => h.2.2.2 c hc
  obtain rfl := (ho c).mp hc
  exact ⟨hc, hst, hpc ▸ hf⟩

theorem Inv.call (h : Inv s stack f) (hpc : s.pc c = .holding) :
    Inv (s.goto c (.unlock .check)) stack f := by
  have hc : (s.pc c).Owns := by
    rw [hpc]
    trivial
  obtain ⟨hst, o, ho, hf⟩ := h.owner.resolve_left fun h => h.2.2.2 c hc
  obtain rfl := (ho c).mp hc
  rw [hpc] at hf
  exact h.own hc rfl trivial rfl rfl rfl h.linked hst hf

theorem Inv.check (h : Inv s stack f) (hpc : s.pc c = .unlock .check) :
    Inv (unlockStep s c .check) stack f := by
  obtain ⟨hc, hst, hf⟩ := h.unlocking hpc
  rw [unlockStep, if_neg hst]
  refine h.own hc rfl trivial rfl rfl rfl h.linked hst ?_
  split_ifs with hw
  · have hf' : Chain s.next s.waiters f := hf
    rw [hw, chain_none] at hf'
    exact ⟨hw, hf'⟩
  · refine ⟨hf, ?_⟩
    rintro rfl
    exact hw hf

/-- A waiter has come before the release. -/
theorem Inv.keep (h : Inv s stack f) (hpc : s.pc c = .unlock .release)
    (hl : s.state ≠ .lockedNoWaiters) : Inv (s.goto c (.unlock .exchange)) stack f := by
  obtain ⟨hc, hst, hw, hf⟩ := h.unlocking hpc
  exact h.own hc rfl trivial rfl rfl rfl h.linked hst ⟨hw, hf, hl⟩

/-- The owner takes the whole stack. -/
theorem Inv.exchange (h : Inv s stack f) (hpc : s.pc c = .unlock .exchange) :
    ∃ op, s.state = .waiter op ∧ s.waiters = none ∧ f = [] ∧ Chain s.next (some op) stack ∧
      Inv (unlockStep s c .exchange) [] stack.reverse := by
  obtain ⟨hc, hst, hw, rfl, hl⟩ := h.unlocking hpc
  cases hs : s.state with
  | notLocked => exact absurd hs hst
  | lockedNoWaiters => exact absurd hs hl
  | waiter op =>
    have hlinked := h.linked
    rw [hs] at hlinked
    refine ⟨op, rfl, hw, rfl, hlinked, ?_⟩
    simp only [unlockStep, hs]
    exact h.own hc rfl trivial rfl rfl (by simp) rfl (by simp)
      ⟨hw, [], stack, rfl, hlinked, by simp⟩

theorem Inv.pop {header : Option ℕ} (h : Inv s stack f) (hpc : s.pc c = .unlock (.pop header)) :
    ∃ op rest, header = some op ∧ f = op :: rest ∧ Inv (unlockStep s c (.pop header)) stack f := by
  obtain ⟨hc, hst, hchain, hne⟩ := h.unlocking hpc
  cases header with
  | none => exact absurd (chain_none.mp hchain) hne
  | some op =>
    obtain ⟨rest, rfl, hrest⟩ := hchain.exists_cons
    rw [unlockStep]
    exact ⟨op, rest, rfl, rfl, h.own hc rfl trivial rfl rfl rfl h.linked hst ⟨rest, hrest, rfl⟩⟩

theorem Inv.unlockStep (h : Inv s stack f) (hpc : s.pc c = .unlock st) :
    ∃ stack' f', Inv (unlockStep s c st) stack' f' := by
  cases st with
  | check => exact ⟨stack, f, h.check hpc⟩
  | release =>
    rw [Mutex.unlockStep]
    split_ifs with hl
    · exact ⟨stack, f, h.release hpc hl⟩
    · exact ⟨stack, f, h.keep hpc hl⟩
  | exchange =>
    obtain ⟨-, -, -, -, -, hi⟩ := h.exchange hpc
    exact ⟨_, _, hi⟩
  | reverse header op =>
    obtain ⟨-, -, hw, done, todo, hdone, htodo, rfl⟩ := h.unlocking hpc
    obtain ⟨todo, rfl, htail⟩ := htodo.exists_cons
    exact ⟨_, _, (h.reverse hpc hw hdone htail).1⟩
  | pop header =>
    obtain ⟨-, -, -, -, hi⟩ := h.pop hpc
    exact ⟨_, _, hi⟩
  | resume op =>
    obtain ⟨rest, -, -, hi⟩ := h.resume hpc
    exact ⟨stack, rest, hi⟩

theorem Inv.other {a : Act} (h : Inv s stack f) (ha : next s a = some s') (hna : ¬ a.IsUnlock) :
    Other s s' stack f := by
  cases step_of_next ha with
  | tryWin hpc hst => exact .inl ⟨hst, h.acquire hst (by simp [hpc])⟩
  | tryLose hpc hst => exact .inr ⟨[], h, fun _ _ => rfl, fun _ _ => rfl⟩
  | lockAsync hpc => exact h.goto (by simp [hpc, Pc.Owns]) (by simp [Pc.Owns])
  | load hpc => exact h.goto (by simp [hpc, Pc.Owns]) (by simp [Pc.Owns])
  | cas hpc => exact h.lockCas hpc
  | unlock hpc => exact absurd trivial hna
  | step hpc => exact absurd trivial hna

theorem Inv.step {a : Act} (h : Inv s stack f) (ha : next s a = some s') :
    ∃ stack' f', Inv s' stack' f' := by
  cases a with
  | unlock c =>
    cases step_of_next ha with
    | unlock hpc => exact ⟨stack, f, h.call hpc⟩
  | step c =>
    cases step_of_next ha with
    | step hpc => exact h.unlockStep hpc
  | _ =>
    rcases h.other ha (fun hu => hu) with ⟨-, hi⟩ | ⟨l, hi, -⟩
    · exact ⟨_, _, hi⟩
    · exact ⟨_, _, hi⟩

theorem inv_inductive : system.Inductive (fun _ _ => True) fun s => ∃ stack f, Inv s stack f where
  init := by
    rintro _ rfl
    exact ⟨[], [], rfl, rfl, List.nodup_nil, by simp [State.start], by simp [State.start],
      .inl ⟨rfl, rfl, rfl, by simp [State.start, Pc.Owns]⟩⟩
  step _ _ _ h _ ha := by
    obtain ⟨stack, f, h⟩ := h
    exact h.step ha

end Suil.Async.Mutex
