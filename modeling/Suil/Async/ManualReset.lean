import Suil.Lib.Transition
import Suil.Lib.Chain
import Mathlib.Tactic.SplitIfs

/-! `ManualResetEvent`: `set`, `reset`, and `co_await` with `await_ready` and `await_suspend`.
A coroutine and the operation it awaits share a number, and so do a thread and its call of
`set`. One step is one atomic operation, the read of `_next` in `set`, or a `resume()`; a
coroutine that is resumed goes on while the call of `set` does. -/
namespace Suil.Async.ManualReset
open Transition Linked

/-- `_state`: nullptr, the address of the event, or that of an operation. -/
inductive Word
  | null
  | setState
  | waiter (op : ℕ)
  deriving DecidableEq

/-- `static_cast<manual_reset_event_operation*>` of a word that is not the event's address. -/
def Word.ptr : Word → Option ℕ
  | .waiter op => some op
  | _ => none

/-- `walk` is the head of the loop of `set`, `resume` the call in its body. -/
inductive Pc
  | out
  | load
  | loop (oldState : Word)
  | suspended
  | walk (current : Option ℕ)
  | resume (current : ℕ) (next : Option ℕ)
  deriving DecidableEq

/-- The rest are ghosts: `sets` counts the exchanges of `set`, `pushes` has for every push
the number of exchanges before it, `ticket` says which push a coroutine has made last and
`call` which exchange a thread; `resumed` pairs each push that was resumed with the
exchange of the call that did it, and `missed` counts the operations that did not suspend
though the event was not set when they looked. -/
structure State where
  state : Word
  next : ℕ → Option ℕ
  pc : ℕ → Pc
  sets : ℕ
  pushes : List ℕ
  ticket : ℕ → ℕ
  call : ℕ → ℕ
  resumed : List (ℕ × ℕ)
  missed : ℕ

def State.start (initiallySet : Bool) : State where
  state := if initiallySet then .setState else .null
  next _ := none
  pc _ := .out
  sets := 0
  pushes := []
  ticket _ := 0
  call _ := 0
  resumed := []
  missed := 0

def State.goto (s : State) (c : ℕ) (pc : Pc) : State := { s with pc := Function.update s.pc c pc }

/-- `isSet`. -/
def State.isSet (s : State) : Bool := decide (s.state = .setState)

/-- `co_await` goes on without a suspension. -/
def State.pass (s : State) (c : ℕ) : State :=
  { s with missed := if s.isSet then s.missed else s.missed + 1 }.goto c .out

/-- The head of the loop of `await_suspend` with the value just read. -/
def State.check (s : State) (c : ℕ) (oldState : Word) : State :=
  if oldState = .setState then s.pass c else s.goto c (.loop oldState)

/-- The compare-exchange of `await_suspend`, with the write of `_next` before it. -/
def State.push (s : State) (c : ℕ) (oldState : Word) (spurious : Bool) : State :=
  let s := { s with next := Function.update s.next c oldState.ptr }
  if spurious ∨ s.state ≠ oldState then s.check c s.state
  else
    { s with
      state := .waiter c, pushes := s.pushes ++ [s.sets]
      ticket := Function.update s.ticket c s.pushes.length }.goto c .suspended

/-- The exchange of `set`. -/
def State.set (s : State) (t : ℕ) : State :=
  { s with
    state := .setState, sets := s.sets + 1, call := Function.update s.call t s.sets }.goto t
    (if s.state = Word.setState then .out else .walk s.state.ptr)

/-- A step of the loop of `set`. -/
def State.walk (s : State) (t : ℕ) : Option ℕ → State
  | none => s.goto t .out
  | some current => s.goto t (.resume current (s.next current))

def State.resume (s : State) (t current : ℕ) (next : Option ℕ) : State :=
  ({ s with resumed := s.resumed ++ [(s.ticket current, s.call t)] }.goto current .out).goto t
    (.walk next)

def State.reset (s : State) (spurious : Bool) : State :=
  if spurious ∨ s.state ≠ .setState then s else { s with state := .null }

inductive Act
  | coAwait (c : ℕ)
  | load (c : ℕ)
  | cas (c : ℕ) (spurious : Bool)
  | set (t : ℕ)
  | step (t : ℕ)
  | reset (t : ℕ) (spurious : Bool)

def next (s : State) : Act → Option State
  | .coAwait c =>
    if s.pc c = .out then some (if s.isSet then s.pass c else s.goto c .load) else none
  | .load c => if s.pc c = .load then some (s.check c s.state) else none
  | .cas c spurious =>
    match s.pc c with
    | .loop oldState => some (s.push c oldState spurious)
    | _ => none
  | .set t => if s.pc t = .out then some (s.set t) else none
  | .step t =>
    match s.pc t with
    | .walk current => some (s.walk t current)
    | .resume current next => some (s.resume t current next)
    | _ => none
  | .reset t spurious => if s.pc t = .out then some (s.reset spurious) else none

def system (initiallySet : Bool) : System State Act where
  init s := s = .start initiallySet
  next := next

/-- The operations that a call of `set` still has to resume, in this order. -/
def Owes (next : ℕ → Option ℕ) : Pc → List ℕ → Prop
  | .walk current, l => Chain next current l
  | .resume current nxt, l => ∃ r, Chain next nxt r ∧ l = current :: r
  | _, l => l = []

theorem Owes.congr {nxt nxt' : ℕ → Option ℕ} {pc : Pc} {l : List ℕ} (h : Owes nxt pc l)
    (hn : ∀ a ∈ l, nxt' a = nxt a) : Owes nxt' pc l := by
  unfold Owes at h ⊢
  split <;> simp only at h ⊢
  · exact h.congr hn
  · obtain ⟨r, hr, rfl⟩ := h
    exact ⟨r, hr.congr fun a ha => hn a (List.mem_cons_of_mem _ ha), rfl⟩
  · exact h

/-- A call of `set` is at work. -/
def Pc.Walks : Pc → Prop
  | .walk _ | .resume _ _ => True
  | _ => False

theorem owes_of_not_walks {nxt : ℕ → Option ℕ} {pc : Pc} {l : List ℕ} (h : ¬ pc.Walks) :
    Owes nxt pc l ↔ l = [] := by
  cases pc with
  | walk current => exact absurd trivial h
  | resume current nxt => exact absurd trivial h
  | _ => rfl

/-- `stack` is what `_state` leads to, `rest t` what the call of `set` of `t` still has to
resume. No operation is in two places. -/
structure Inv (s : State) (stack : List ℕ) (rest : ℕ → List ℕ) : Prop where
  linked : Chain s.next s.state.ptr stack
  owes : ∀ t, Owes s.next (s.pc t) (rest t)
  waiting : ∀ c, s.pc c = .suspended ↔ c ∈ stack ∨ ∃ t, c ∈ rest t
  nodup : stack.Nodup
  nodup_rest : ∀ t, (rest t).Nodup
  apart : ∀ c ∈ stack, ∀ t, c ∉ rest t
  apart_rest : ∀ c t u, c ∈ rest t → c ∈ rest u → t = u

@[simp] theorem goto_pc {s : State} {c d : ℕ} {pc : Pc} :
    (s.goto c pc).pc d = if d = c then pc else s.pc d := by
  simp [State.goto, Function.update_apply]

variable {s s' : State} {stack : List ℕ} {rest : ℕ → List ℕ} {c t : ℕ} {pc : Pc}

/-- A coroutine or thread that neither waits nor owes anything moves, and writes at most its
own operation. -/
theorem Inv.aside (h : Inv s stack rest) (hpc : s'.pc = Function.update s.pc c pc)
    (hn : ∀ a, a ≠ c → s'.next a = s.next a) (hst : s'.state.ptr = s.state.ptr)
    (hc : s.pc c ≠ .suspended) (hr : rest c = []) (hc' : pc ≠ .suspended)
    (ho : Owes s'.next pc []) : Inv s' stack rest := by
  have hnot : c ∉ stack ∧ ∀ t, c ∉ rest t := by
    constructor
    · exact fun hm => hc ((h.waiting c).mpr (.inl hm))
    · exact fun t hm => hc ((h.waiting c).mpr (.inr ⟨t, hm⟩))
  refine ⟨?_, fun t => ?_, fun d => ?_, h.nodup, h.nodup_rest, h.apart, h.apart_rest⟩
  · rw [hst]
    exact h.linked.congr fun a ha => hn a (ne_of_mem_of_not_mem ha hnot.1)
  · rw [hpc, Function.update_apply]
    split_ifs with ht
    · rw [ht, hr]
      exact ho
    · exact (h.owes t).congr fun a ha => hn a (ne_of_mem_of_not_mem ha (hnot.2 t))
  · rw [← h.waiting, hpc, Function.update_apply]
    split_ifs with hd
    · rw [hd]
      exact iff_of_false hc' hc
    · rfl

theorem Inv.push (h : Inv s stack rest) (hc : s.pc c ≠ .suspended) (hr : ¬ (s.pc c).Walks) {s' : State}
    (hs' : s'.state = .waiter c) (hn : s'.next = Function.update s.next c s.state.ptr)
    (hpc : s'.pc = Function.update s.pc c .suspended) : Inv s' (c :: stack) rest := by
  have hns : c ∉ stack := fun hm => hc ((h.waiting c).mpr (.inl hm))
  have hnr : ∀ t, c ∉ rest t := fun t hm => hc ((h.waiting c).mpr (.inr ⟨t, hm⟩))
  refine ⟨?_, fun t => ?_, fun d => ?_, h.nodup.cons hns, h.nodup_rest, ?_, h.apart_rest⟩
  · rw [hs', hn]
    exact h.linked.push hns
  · rw [hpc, hn, Function.update_apply]
    split_ifs with ht
    · subst ht
      exact (owes_of_not_walks hr).mp (h.owes t)
    · exact (h.owes t).congr fun a ha =>
        Function.update_of_ne (ne_of_mem_of_not_mem ha (hnr t)) _ _
  · rw [hpc, Function.update_apply, List.mem_cons, or_assoc, ← h.waiting]
    split_ifs with hd
    · simp [hd]
    · simp [hd]
  · intro d hd u
    rcases List.mem_cons.mp hd with rfl | hd
    · exact hnr u
    · exact h.apart d hd u

/-- The steps that a call of `set` takes after its exchange. -/
theorem step_cases (hn : next s (.step t) = some s') :
    (∃ current, s.pc t = .walk current ∧ s' = s.walk t current) ∨
      ∃ op nxt, s.pc t = .resume op nxt ∧ s' = s.resume t op nxt := by
  simp only [next] at hn
  split at hn
  next current ht => exact .inl ⟨current, ht, (Option.some.inj hn).symm⟩
  next op nxt ht => exact .inr ⟨op, nxt, ht, (Option.some.inj hn).symm⟩
  next => cases hn

theorem cas_cases {c : ℕ} {spurious : Bool} (hn : next s (.cas c spurious) = some s') :
    ∃ oldState, s.pc c = .loop oldState ∧ s' = s.push c oldState spurious := by
  simp only [next] at hn
  split at hn
  next oldState hc => exact ⟨oldState, hc, (Option.some.inj hn).symm⟩
  next => cases hn

theorem suspended_set (ht : s.pc t = .out) (d : ℕ) :
    (s.set t).pc d = .suspended ↔ s.pc d = .suspended := by
  simp only [State.set, goto_pc]
  split_ifs with hd hset
  · simp [hd, ht]
  · simp [hd, ht]
  · rfl

theorem suspended_walk {op : ℕ} (ht : s.pc t = .walk (some op)) (d : ℕ) :
    (s.walk t (some op)).pc d = .suspended ↔ s.pc d = .suspended := by
  simp only [State.walk, goto_pc]
  split_ifs with hd
  · simp [hd, ht]
  · rfl

/-- The exchange of `set` takes the whole stack. -/
theorem Inv.set (h : Inv s stack rest) (ht : s.pc t = .out) :
    Inv (s.set t) [] (Function.update rest t stack) := by
  have hrest : rest t = [] := (owes_of_not_walks (by rw [ht]; exact id)).mp (h.owes t)
  have hmem : ∀ c u, c ∈ Function.update rest t stack u ↔
      u = t ∧ c ∈ stack ∨ u ≠ t ∧ c ∈ rest u := by
    intro c u
    by_cases hu : u = t
    · subst hu
      simp
    · simp [hu]
  refine ⟨rfl, fun u => ?_, fun d => ?_, List.nodup_nil, fun u => ?_, nofun, fun d u v hu hv => ?_⟩
  · by_cases hu : u = t
    · subst hu
      simp only [State.set, goto_pc, if_true, Function.update_self]
      split_ifs with hset
      · have hlinked := h.linked
        rw [hset] at hlinked
        exact chain_none.mp hlinked
      · exact h.linked
    · simp only [State.set, goto_pc, if_neg hu, Function.update_of_ne hu]
      exact h.owes u
  · rw [suspended_set ht, h.waiting]
    constructor
    · rintro (hd | ⟨u, hd⟩)
      · exact .inr ⟨t, (hmem d t).mpr (.inl ⟨rfl, hd⟩)⟩
      · refine .inr ⟨u, (hmem d u).mpr (.inr ⟨?_, hd⟩)⟩
        rintro rfl
        rw [hrest] at hd
        exact absurd hd List.not_mem_nil
    · rintro (hd | ⟨u, hd⟩)
      · exact absurd hd List.not_mem_nil
      · rcases (hmem d u).mp hd with ⟨-, hd⟩ | ⟨-, hd⟩
        · exact .inl hd
        · exact .inr ⟨u, hd⟩
  · by_cases hu : u = t
    · subst hu
      simpa using h.nodup
    · simpa [hu] using h.nodup_rest u
  · rcases (hmem d u).mp hu with ⟨hut, hd⟩ | ⟨-, hd⟩ <;>
      rcases (hmem d v).mp hv with ⟨hvt, hd'⟩ | ⟨-, hd'⟩
    · exact hut.trans hvt.symm
    · exact absurd hd' (h.apart d hd v)
    · exact absurd hd (h.apart d hd' u)
    · exact h.apart_rest d u v hd hd'

/-- The read of `_next` of the operation that is to be resumed next. -/
theorem Inv.walk {op : ℕ} (h : Inv s stack rest) (ht : s.pc t = .walk (some op)) :
    Inv (s.walk t (some op)) stack rest := by
  have howes := h.owes t
  rw [ht] at howes
  obtain ⟨r, hr, hl⟩ := Chain.exists_cons howes
  refine ⟨h.linked, fun u => ?_, fun d => ?_, h.nodup, h.nodup_rest, h.apart, h.apart_rest⟩
  · simp only [State.walk, goto_pc]
    split_ifs with hu
    · subst hu
      exact ⟨r, hl, hr⟩
    · exact h.owes u
  · rw [suspended_walk ht, h.waiting]

/-- A `resume()` takes the first operation off the list of the call. -/
theorem Inv.resume {op : ℕ} {nxt : Option ℕ} (h : Inv s stack rest)
    (ht : s.pc t = .resume op nxt) :
    ∃ r, rest t = op :: r ∧ Inv (s.resume t op nxt) stack (Function.update rest t r) := by
  have howes := h.owes t
  rw [ht] at howes
  obtain ⟨r, hr, hl⟩ := howes
  have hop : op ∈ rest t := by
    rw [hl]
    exact List.mem_cons_self
  have hsusp : s.pc op = .suspended := (h.waiting op).mpr (.inr ⟨t, hop⟩)
  have hopt : op ≠ t := by
    rintro rfl
    exact absurd (hsusp.symm.trans ht) nofun
  have hnodup : op ∉ r ∧ r.Nodup := by
    have := h.nodup_rest t
    rw [hl] at this
    exact List.nodup_cons.mp this
  have hmem : ∀ d u, d ∈ Function.update rest t r u ↔ d ≠ op ∧ d ∈ rest u := by
    intro d u
    by_cases hu : u = t
    · subst hu
      rw [Function.update_self, hl, List.mem_cons]
      constructor
      · intro hd
        exact ⟨ne_of_mem_of_not_mem hd hnodup.1, .inr hd⟩
      · rintro ⟨hne, hd⟩
        exact hd.resolve_left hne
    · rw [Function.update_of_ne hu]
      constructor
      · intro hd
        refine ⟨?_, hd⟩
        rintro rfl
        exact hu (h.apart_rest d u t hd hop)
      · exact fun hd => hd.2
  refine ⟨r, hl, h.linked, fun u => ?_, fun d => ?_, h.nodup, fun u => ?_, ?_, ?_⟩
  · simp only [State.resume, goto_pc]
    split_ifs with hu huop
    · subst hu
      rw [Function.update_self]
      exact hr
    · subst huop
      rw [Function.update_of_ne hu]
      have := h.owes u
      rwa [hsusp] at this
    · rw [Function.update_of_ne hu]
      exact h.owes u
  · simp only [State.resume, goto_pc, hmem]
    split_ifs with hd hdop
    · subst hd
      refine iff_of_false nofun ?_
      rintro (hd | ⟨u, -, hd⟩)
      · exact absurd (((h.waiting d).mpr (.inl hd)).symm.trans ht) nofun
      · exact absurd (((h.waiting d).mpr (.inr ⟨u, hd⟩)).symm.trans ht) nofun
    · subst hdop
      refine iff_of_false nofun ?_
      rintro (hd | ⟨u, hne, -⟩)
      · exact h.apart d hd t hop
      · exact hne rfl
    · rw [h.waiting]
      exact or_congr_right (exists_congr fun u => (and_iff_right hdop).symm)
  · by_cases hu : u = t
    · subst hu
      simpa using hnodup.2
    · simpa [hu] using h.nodup_rest u
  · exact fun d hd u hm => h.apart d hd u ((hmem d u).mp hm).2
  · exact fun d u v hu hv => h.apart_rest d u v ((hmem d u).mp hu).2 ((hmem d v).mp hv).2

end Suil.Async.ManualReset
