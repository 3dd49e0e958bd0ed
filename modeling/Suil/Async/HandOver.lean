import Suil.Async.Mutex
import Suil.Lib.Progress
import Mathlib.Data.Prod.Lex

/-! Who gets the mutex next: `unlock` hands it to the oldest waiter, so that every
waiter is resumed once and in the order of the pushes. The rank of a waiter is the
number of waiters ahead of it and how far the owner is from the next `resume()`. -/
namespace Suil.Async.Mutex
open Transition Linked

variable {s s' : State} {stack f ahead behind : List ℕ} {c o op w n : ℕ} {pc : Pc} {st : UnlockStage}

/-- What a step does to the waiters: nothing, the push of one whose `await_suspend`
returns true, or the `resume()` of one, which then holds the lock. -/
inductive Waits (s s' : State) : Prop
  | same (hp : s'.pushed = s.pushed) (hr : s'.resumed = s.resumed)
      (hpc : ∀ d, s'.pc d = .suspended ↔ s.pc d = .suspended)
  | push (c : ℕ) (hc : ∃ oldState, s.pc c = .loop oldState) (hp : s'.pushed = s.pushed ++ [c])
      (hr : s'.resumed = s.resumed) (hpc : ∀ d, s'.pc d = .suspended ↔ d = c ∨ s.pc d = .suspended)
  | resume (c : ℕ) (hc : s.pc c = .suspended) (hc' : s'.pc c = .holding)
      (hp : s'.pushed = s.pushed) (hr : s'.resumed = s.resumed ++ [c])
      (hpc : ∀ d, s'.pc d = .suspended ↔ d ≠ c ∧ s.pc d = .suspended)

theorem waits_of_update (hp : s'.pushed = s.pushed) (hr : s'.resumed = s.resumed)
    (hpc : s'.pc = Function.update s.pc c pc) (hc : s.pc c ≠ .suspended) (hc' : pc ≠ .suspended) :
    Waits s s' := by
  refine .same hp hr fun d => ?_
  rw [hpc, Function.update_apply]
  split_ifs with hd
  · exact iff_of_false hc' (hd ▸ hc)
  · rfl

theorem waits_lockCas {oldState : Word} {spurious : Bool} (hpc : s.pc c = .loop oldState) :
    Waits s (lockCas s c oldState spurious) := by
  have hc : s.pc c ≠ .suspended := by simp [hpc]
  simp only [lockCas]
  split <;> split_ifs
  · exact waits_of_update rfl rfl rfl hc (by simp)
  · exact waits_of_update rfl rfl rfl hc (by simp)
  · exact waits_of_update rfl rfl rfl hc (by simp)
  · refine .push c ⟨_, hpc⟩ rfl rfl fun d => ?_
    rw [goto_pc]
    split_ifs with hd <;> simp [hd]

theorem Inv.waits_unlockStep (h : Inv s stack f) (hpc : s.pc c = .unlock st) :
    Waits s (Mutex.unlockStep s c st) := by
  have hc : s.pc c ≠ .suspended := by simp [hpc]
  cases st with
  | check =>
    rw [Mutex.unlockStep]
    split
    · exact waits_of_update rfl rfl rfl hc (by simp)
    · exact waits_of_update rfl rfl rfl hc (by simp)
  | release =>
    rw [Mutex.unlockStep]
    split_ifs
    · exact waits_of_update rfl rfl rfl hc (by simp)
    · exact waits_of_update rfl rfl rfl hc (by simp)
  | exchange =>
    simp only [Mutex.unlockStep]
    split
    · exact waits_of_update rfl rfl rfl hc (by simp)
    · exact waits_of_update rfl rfl rfl hc (by simp)
  | reverse header op => exact waits_of_update rfl rfl rfl hc (by simp)
  | pop header =>
    cases header with
    | none => exact waits_of_update rfl rfl rfl hc (by simp)
    | some op => exact waits_of_update rfl rfl rfl hc (by simp)
  | resume op =>
    obtain ⟨-, -, hop, -⟩ := h.resume hpc
    refine .resume op hop (by simp [Mutex.unlockStep]) rfl rfl fun d => ?_
    simp only [Mutex.unlockStep, goto_pc]
    split_ifs with h1 h2
    · simp [h1]
    · simp [h2, hpc]
    · simp [h1]

theorem Inv.waits_step {a : Act} (h : Inv s stack f) (ha : next s a = some s') : Waits s s' := by
  cases step_of_next ha with
  | tryWin hpc => exact waits_of_update rfl rfl rfl (by simp [hpc]) (by simp)
  | tryLose => exact .same rfl rfl fun _ => Iff.rfl
  | lockAsync hpc => exact waits_of_update rfl rfl rfl (by simp [hpc]) (by simp)
  | load hpc => exact waits_of_update rfl rfl rfl (by simp [hpc]) (by simp)
  | cas hpc => exact waits_lockCas hpc
  | unlock hpc => exact waits_of_update rfl rfl rfl (by simp [hpc]) (by simp)
  | step hpc => exact h.waits_unlockStep hpc

/-- The stage of the owner; each leads to a lower one, and 0 is the `resume()`. -/
def Pc.stage : Pc → ℕ
  | .holding => 6
  | .unlock .check => 5
  | .unlock .release => 4
  | .unlock .exchange => 3
  | .unlock (.reverse _ _) => 2
  | .unlock (.pop _) => 1
  | _ => 0

/-- The number of turns that the loop over the batch has left. -/
def Turns (s : State) (f : List ℕ) (n : ℕ) : Pc → Prop
  | .unlock (.reverse _ op) => ∃ todo, Chain s.next (some op) todo ∧ todo ⊆ f ∧ todo.length = n
  | _ => n = 0

abbrev rank (ahead : List ℕ) (pc : Pc) (n : ℕ) : ℕ ×ₗ ℕ ×ₗ ℕ :=
  toLex (ahead.length, toLex (pc.stage, n))

def Ranked (w : ℕ) (b : ℕ ×ₗ ℕ ×ₗ ℕ) (s : State) : Prop :=
  ∃ stack f ahead behind o n, Inv s stack f ∧ f ++ stack.reverse = ahead ++ w :: behind ∧
    (s.pc o).Owns ∧ Turns s f n (s.pc o) ∧ b = rank ahead (s.pc o) n

theorem Inv.ranked (h : Inv s stack f) (hq : f ++ stack.reverse = ahead ++ w :: behind)
    (hpc : s.pc o = pc) (ho : pc.Owns) (hn : Turns s f n pc) : Ranked w (rank ahead pc n) s := by
  subst hpc
  exact ⟨stack, f, ahead, behind, o, n, h, hq, ho, hn, rfl⟩

/-- Where a step of the owner leads: it hands the lock to `w` or lowers the rank of `w`. -/
def Lowers (w : ℕ) (b : ℕ ×ₗ ℕ ×ₗ ℕ) (s : State) : Prop :=
  s.pc w = .holding ∨ ∃ b' < b, Ranked w b' s

theorem rank_lt_of_stage {pc' : Pc} {m : ℕ} (h : pc'.stage < pc.stage) :
    rank ahead pc' m < rank ahead pc n :=
  Prod.Lex.toLex_lt_toLex.mpr (.inr ⟨rfl, Prod.Lex.toLex_lt_toLex.mpr (.inl h)⟩)

theorem rank_lt_of_turns {pc' : Pc} {m : ℕ} (h : pc'.stage = pc.stage) (hn : m < n) :
    rank ahead pc' m < rank ahead pc n :=
  Prod.Lex.toLex_lt_toLex.mpr (.inr ⟨rfl, Prod.Lex.toLex_lt_toLex.mpr (.inr ⟨h, hn⟩)⟩)

theorem rank_lt_of_ahead {ahead' : List ℕ} {pc' : Pc} {m : ℕ} (h : ahead'.length < ahead.length) :
    rank ahead' pc' m < rank ahead pc n :=
  Prod.Lex.toLex_lt_toLex.mpr (.inl h)

theorem lowers_of_stage {b : Pc} {m : ℕ} (h : Inv s stack f)
    (hq : f ++ stack.reverse = ahead ++ w :: behind) (hpc : s.pc o = b) (ho : b.Owns)
    (hn : Turns s f m b) (hlt : b.stage < pc.stage) : Lowers w (rank ahead pc n) s :=
  .inr ⟨_, rank_lt_of_stage hlt, h.ranked hq hpc ho hn⟩

theorem lowers_check (h : Inv s stack f) (hpc : s.pc c = .unlock .check)
    (hq : f ++ stack.reverse = ahead ++ w :: behind) :
    Lowers w (rank ahead (.unlock .check) n) (unlockStep s c .check) := by
  have hi := h.check hpc
  have hst := (h.unlocking hpc).2.1
  rw [unlockStep, if_neg hst] at hi ⊢
  split_ifs at hi ⊢ with hw
  · have hpc' : (s.goto c (.unlock .release)).pc c = .unlock .release := by simp
    exact lowers_of_stage hi hq hpc' trivial rfl (by simp [Pc.stage])
  · have hpc' : (s.goto c (.unlock (.pop s.waiters))).pc c = .unlock (.pop s.waiters) := by simp
    exact lowers_of_stage hi hq hpc' trivial rfl (by simp [Pc.stage])

/-- With a waiter in the stack the compare-exchange of the release fails. -/
theorem lowers_release (h : Inv s stack f) (hpc : s.pc c = .unlock .release)
    (hq : f ++ stack.reverse = ahead ++ w :: behind) :
    Lowers w (rank ahead (.unlock .release) n) (unlockStep s c .release) := by
  obtain ⟨-, -, -, rfl⟩ := h.unlocking hpc
  have hl : s.state ≠ .lockedNoWaiters := by
    intro hs
    have hlinked := h.linked
    rw [hs] at hlinked
    obtain rfl := chain_none.mp hlinked
    simp at hq
  rw [unlockStep, if_neg hl]
  have hpc' : (s.goto c (.unlock .exchange)).pc c = .unlock .exchange := by simp
  exact lowers_of_stage (h.keep hpc hl) hq hpc' trivial rfl (by simp [Pc.stage])

theorem lowers_exchange (h : Inv s stack f) (hpc : s.pc c = .unlock .exchange)
    (hq : f ++ stack.reverse = ahead ++ w :: behind) :
    Lowers w (rank ahead (.unlock .exchange) n) (unlockStep s c .exchange) := by
  obtain ⟨op, hs, hw, rfl, hchain, hi⟩ := h.exchange hpc
  have hpc' : (unlockStep s c .exchange).pc c = .unlock (.reverse none op) := by
    simp [unlockStep, hs]
  have hnext : (unlockStep s c .exchange).next = s.next := by
    simp [unlockStep, hs]
  refine lowers_of_stage hi (by simpa using hq) hpc' trivial ⟨stack, ?_, by simp, rfl⟩ ?_
  · rw [hnext]
    exact hchain
  · simp [Pc.stage]

theorem lowers_reverse {header : Option ℕ} (h : Inv s stack f)
    (hpc : s.pc c = .unlock (.reverse header op)) (hq : f ++ stack.reverse = ahead ++ w :: behind)
    (hn : Turns s f n (.unlock (.reverse header op))) :
    Lowers w (rank ahead (.unlock (.reverse header op)) n) (unlockStep s c (.reverse header op)) := by
  obtain ⟨-, -, hw, done, todo, hdone, htodo, rfl⟩ := h.unlocking hpc
  obtain ⟨todo', htodo', -, rfl⟩ := hn
  obtain rfl := htodo'.unique htodo
  obtain ⟨todo, rfl, htail⟩ := htodo.exists_cons
  obtain ⟨hi, -, htail'⟩ := h.reverse hpc hw hdone htail
  have hq' : todo.reverse ++ op :: done ++ stack.reverse = ahead ++ w :: behind := by
    rw [← hq]
    simp
  cases hs : s.next op with
  | none =>
    have hpc' : (unlockStep s c (.reverse header op)).pc c = .unlock (.pop (some op)) := by
      simp [unlockStep, hs]
    exact lowers_of_stage hi hq' hpc' trivial rfl (by simp [Pc.stage])
  | some tmp =>
    have hpc' : (unlockStep s c (.reverse header op)).pc c = .unlock (.reverse (some op) tmp) := by
      simp [unlockStep, hs]
    have hturns : Turns (unlockStep s c (.reverse header op)) (todo.reverse ++ op :: done)
        todo.length (.unlock (.reverse (some op) tmp)) := by
      refine ⟨todo, ?_, by simp, rfl⟩
      rw [← hs]
      exact htail'
    have hlt : rank ahead (.unlock (.reverse (some op) tmp)) todo.length <
        rank ahead (.unlock (.reverse header op)) (op :: todo).length :=
      rank_lt_of_turns rfl (by simp)
    exact .inr ⟨_, hlt, hi.ranked hq' hpc' trivial hturns⟩

theorem lowers_pop {header : Option ℕ} (h : Inv s stack f)
    (hpc : s.pc c = .unlock (.pop header)) (hq : f ++ stack.reverse = ahead ++ w :: behind) :
    Lowers w (rank ahead (.unlock (.pop header)) n) (unlockStep s c (.pop header)) := by
  obtain ⟨op, l, rfl, -, hi⟩ := h.pop hpc
  have hpc' : (unlockStep s c (.pop (some op))).pc c = .unlock (.resume op) := by simp [unlockStep]
  exact lowers_of_stage hi hq hpc' trivial rfl (by simp [Pc.stage])

theorem lowers_resume (h : Inv s stack f) (hpc : s.pc c = .unlock (.resume op))
    (hq : f ++ stack.reverse = ahead ++ w :: behind) :
    Lowers w (rank ahead (.unlock (.resume op)) n) (unlockStep s c (.resume op)) := by
  obtain ⟨rest, rfl, -, hi⟩ := h.resume hpc
  have hpc' : (unlockStep s c (.resume op)).pc op = .holding := by simp [unlockStep]
  rw [List.cons_append] at hq
  cases ahead with
  | nil =>
    obtain ⟨rfl, -⟩ := List.cons.inj hq
    exact .inl hpc'
  | cons a ahead =>
    obtain ⟨-, hq⟩ := List.cons.inj hq
    exact .inr ⟨_, rank_lt_of_ahead (by simp), hi.ranked hq hpc' trivial rfl⟩

theorem lowers_unlockStep (h : Inv s stack f) (hpc : s.pc c = .unlock st)
    (hq : f ++ stack.reverse = ahead ++ w :: behind) (hn : Turns s f n (.unlock st)) :
    Lowers w (rank ahead (.unlock st) n) (unlockStep s c st) := by
  cases st with
  | check => exact lowers_check h hpc hq
  | release => exact lowers_release h hpc hq
  | exchange => exact lowers_exchange h hpc hq
  | reverse header op => exact lowers_reverse h hpc hq hn
  | pop header => exact lowers_pop h hpc hq
  | resume op => exact lowers_resume h hpc hq

theorem next_step (hpc : s.pc c = .unlock st) : next s (.step c) = some (unlockStep s c st) := by
  simp only [next, hpc]

/-- Somebody owns the lock while a coroutine is suspended. -/
theorem Inv.exists_ranked (h : Inv s stack f) (hw : s.pc w = .suspended) : ∃ b, Ranked w b s := by
  have hmem := (h.waiting w).mpr hw
  obtain ⟨ahead, behind, hq⟩ := List.append_of_mem hmem
  rcases h.owner with ⟨hst, -, rfl, -⟩ | ⟨-, o, ho, hf⟩
  · have hlinked := h.linked
    rw [hst] at hlinked
    obtain rfl := chain_none.mp hlinked
    simp at hmem
  · have hturns : ∃ n, Turns s f n (s.pc o) := by
      unfold Turns
      split
      · next hpc =>
        rw [hpc] at hf
        obtain ⟨-, done, todo, -, htodo, rfl⟩ := hf
        exact ⟨todo.length, todo, htodo, by simp, rfl⟩
      · exact ⟨0, rfl⟩
    obtain ⟨n, hn⟩ := hturns
    exact ⟨_, h.ranked hq rfl ((ho o).mpr rfl) hn⟩

theorem Turns.congr (h : Turns s f n pc) (hn : ∀ a ∈ f, s'.next a = s.next a) :
    Turns s' f n pc := by
  unfold Turns at h ⊢
  split <;> simp only at h ⊢
  · obtain ⟨todo, hc, hsub, hlen⟩ := h
    exact ⟨todo, hc.congr fun a ha => hn a (hsub ha), hsub, hlen⟩
  · exact h

/-- Every step of `unlock` is one of the owner. -/
theorem lowers_of_isUnlock {a : Act} {b : ℕ ×ₗ ℕ ×ₗ ℕ} (h : Ranked w b s) (ha : a.IsUnlock)
    (hs : next s a = some s') : Lowers w b s' := by
  obtain ⟨stack, f, ahead, behind, o, n, hi, hq, ho, hn, rfl⟩ := h
  obtain ⟨-, o', hown, -⟩ := hi.owner.resolve_left fun h => h.2.2.2 o ho
  obtain rfl := (hown o).mp ho
  cases step_of_next hs with
  | @unlock c hpc =>
    obtain rfl := (hown c).mp (by rw [hpc]; trivial)
    rw [hpc]
    have hpc' : (s.goto c (.unlock .check)).pc c = .unlock .check := by simp
    exact lowers_of_stage (hi.call hpc) hq hpc' trivial rfl (by simp [Pc.stage])
  | @step c st hpc =>
    obtain rfl := (hown c).mp (by rw [hpc]; trivial)
    rw [hpc] at hn ⊢
    exact lowers_unlockStep hi hpc hq hn
  | tryWin | tryLose | lockAsync | load | cas => exact absurd ha fun hu => hu

theorem exists_unlock (ho : (s.pc o).Owns) : ∃ a t, a.IsUnlock ∧ next s a = some t := by
  cases hpc : s.pc o with
  | holding => exact ⟨.unlock o, s.goto o (.unlock .check), trivial, if_pos hpc⟩
  | unlock st => exact ⟨.step o, unlockStep s o st, trivial, next_step hpc⟩
  | _ => simp [hpc, Pc.Owns] at ho

theorem ranked_unlock (w : ℕ) :
    system.Ranked Act.IsUnlock (Ranked w) fun s => s.pc w = .holding where
  enabled b s h := by
    obtain ⟨-, -, -, -, o, -, -, -, ho, -, -⟩ := h
    exact exists_unlock ho
  helps b s a t h ha hs := lowers_of_isUnlock h ha hs
  keeps b s a t h hs := by
    by_cases ha : a.IsUnlock
    · refine (lowers_of_isUnlock h ha hs).imp_right ?_
      rintro ⟨b', hb', ht⟩
      exact ⟨b', hb'.le, ht⟩
    · obtain ⟨stack, f, ahead, behind, o, n, hi, hq, ho, hn, rfl⟩ := h
      obtain ⟨hst, -⟩ := hi.owner.resolve_left fun h => h.2.2.2 o ho
      obtain ⟨l, hi', hpc, hnext⟩ := (hi.other hs ha).resolve_left fun h => hst h.1
      have hq' : f ++ (l ++ stack).reverse = ahead ++ w :: (behind ++ l.reverse) := by
        rw [List.reverse_append, ← List.append_assoc, hq]
        simp
      exact .inr ⟨_, le_rfl, hi'.ranked hq' (hpc o ho) ho (hn.congr hnext)⟩

/-- What holds of every state: one owner; the waiters are those pushed and not yet resumed,
in the order of the pushes; the free mutex has no waiter; no assertion has failed; a step
resumes nobody but a waiter, as the new holder. -/
structure Safe (s : State) : Prop where
  exclusive : ∀ c d, (s.pc c).Owns → (s.pc d).Owns → c = d
  fifo : ∃ queue : List ℕ, s.pushed = s.resumed ++ queue ∧ queue.Nodup ∧
    ∀ c, c ∈ queue ↔ s.pc c = .suspended
  free : s.state = .notLocked → s.waiters = none ∧ ∀ c, s.pc c ≠ .suspended
  asserts : ∀ c, s.pc c ≠ .aborted
  steps : ∀ a t, next s a = some t → Waits s t

theorem Inv.safe (h : Inv s stack f) : Safe s where
  exclusive c d hc hd := by
    obtain ⟨-, o, ho, -⟩ := h.owner.resolve_left fun h => h.2.2.2 c hc
    exact ((ho c).mp hc).trans ((ho d).mp hd).symm
  fifo := ⟨f ++ stack.reverse, h.log, h.nodup, h.waiting⟩
  free hst := by
    obtain ⟨-, hw, rfl, -⟩ := h.owner.resolve_right fun h => h.1 hst
    have hlinked := h.linked
    rw [hst] at hlinked
    obtain rfl := chain_none.mp hlinked
    exact ⟨hw, fun c hc => by simpa using (h.waiting c).mpr hc⟩
  asserts := h.fine
  steps _ _ ha := h.waits_step ha

/-- Whoever has the lock goes on with `unlock`. -/
def Fair (r : system.Run) : Prop :=
  ∀ n, (∃ o, ((r.state n).pc o).Owns) → ∃ m ≥ n, (r.act m).IsUnlock

theorem Fair.resumes {r : system.Run} (hr : Fair r) (hw : (r.state n).pc w = .suspended) :
    ∃ m > n, (r.state m).pc w = .holding := by
  obtain ⟨stack, f, hi⟩ := inv_inductive.holds (r.reachable n)
  obtain ⟨b, hb⟩ := hi.exists_ranked hw
  refine (ranked_unlock w).eventually r (fun b m hm => ?_) hb
  obtain ⟨-, -, -, -, o, -, -, -, ho, -, -⟩ := hm
  exact hr m ⟨o, ho⟩

/-- The mutex is exclusive and first come, first served; every waiter gets it in every fair
run, and the steps of `unlock` alone get it there from every state. -/
theorem mutex_correct :
    (∀ s, system.Reachable s → Safe s) ∧
    (∀ r : system.Run, Fair r → ∀ n c, (r.state n).pc c = .suspended →
      ∃ m > n, (r.state m).pc c = .holding) ∧
    ∀ s, system.Reachable s → ∀ c, s.pc c = .suspended →
      ∃ t, system.LeadsBy Act.IsUnlock s t ∧ t.pc c = .holding := by
  refine ⟨fun s hs => ?_, fun r hr n c hc => hr.resumes hc, fun s hs c hc => ?_⟩
  · obtain ⟨stack, f, hi⟩ := inv_inductive.holds hs
    exact hi.safe
  · obtain ⟨stack, f, hi⟩ := inv_inductive.holds hs
    obtain ⟨b, hb⟩ := hi.exists_ranked hc
    exact (ranked_unlock c).leads hb

/-- Somebody can always go on, by `unlock` as long as the lock is held. -/
theorem Inv.exists_next (h : Inv s stack f) :
    ∃ a t, ((∃ o, (s.pc o).Owns) → a.IsUnlock) ∧ next s a = some t := by
  by_cases howner : ∃ o, (s.pc o).Owns
  · obtain ⟨o, ho⟩ := howner
    obtain ⟨a, t, ha, hn⟩ := exists_unlock ho
    exact ⟨a, t, fun _ => ha, hn⟩
  · have hfree := h.owner.resolve_right fun ⟨_, o, ho, _⟩ => howner ⟨o, (ho o).mpr rfl⟩
    have hnone : s.pc 0 ≠ .suspended := (h.safe.free hfree.1).2 0
    cases hpc : s.pc 0 with
    | out => exact ⟨.lockAsync 0, _, fun hex => absurd hex howner, if_pos hpc⟩
    | load => exact ⟨.load 0, _, fun hex => absurd hex howner, if_pos hpc⟩
    | loop oldState =>
      have hn : next s (.cas 0 false) = some (Mutex.lockCas s 0 oldState false) := by
        simp only [next, hpc]
      exact ⟨.cas 0 false, _, fun hex => absurd hex howner, hn⟩
    | suspended => exact absurd hpc hnone
    | aborted => exact absurd hpc (h.fine 0)
    | holding | unlock => exact absurd ⟨0, by simp [hpc, Pc.Owns]⟩ howner

/-- A fair run passes through every state in which somebody waits. -/
theorem exists_fair (hs : system.Reachable s) (hw : s.pc w = .suspended) :
    ∃ (r : system.Run) (n : ℕ), r.state n = s ∧ Fair r := by
  obtain ⟨r, n, hn, hr⟩ := System.exists_run_scheduled
    (fun _ u a => (∃ o, (u.pc o).Owns) → a.IsUnlock) (fun _ u hu => by
      obtain ⟨stack, f, hi⟩ := inv_inductive.holds hu
      exact hi.exists_next) hs
  refine ⟨r, n, hn, fun m hm => ?_⟩
  by_cases hle : n ≤ m
  · obtain ⟨k, rfl⟩ := Nat.exists_eq_add_of_le hle
    exact ⟨n + k, le_rfl, hr k hm⟩
  · obtain ⟨stack, f, hi⟩ := inv_inductive.holds hs
    obtain ⟨b, -, -, -, -, o, -, -, -, ho, -, -⟩ := hi.exists_ranked hw
    exact ⟨n, (not_le.mp hle).le, hr 0 ⟨o, hn ▸ ho⟩⟩

/-- 1 and 2 come while 0 has the lock; 1 gets it first. -/
example : (system.run .start [.tryLock 0, .lockAsync 1, .lockAsync 2, .load 1, .load 2, .cas 1 true,
    .cas 1 false, .cas 2 false, .cas 2 false, .unlock 0, .step 0, .step 0, .step 0, .step 0, .step 0,
    .step 0, .step 0]).map (fun s => (s.pc 0, s.pc 1, s.pc 2, s.resumed)) =
    some (.out, .holding, .suspended, [1]) := by decide

/-- 1 waits for 0, and gets the lock in a fair run. -/
theorem mutex_correct_waits : ∃ r : system.Run, Fair r ∧ ∃ n, (r.state n).pc 1 = .suspended ∧
    ∃ m > n, (r.state m).pc 1 = .holding := by
  obtain ⟨s, hs, hp⟩ := system.exists_reachable_of_run
    [.tryLock 0, .lockAsync 1, .load 1, .cas 1 false] (fun s => s.pc 1 = .suspended)
    (s := .start) rfl (by decide)
  have hw : s.pc 1 = .suspended := of_decide_eq_true hp
  obtain ⟨r, n, rfl, hr⟩ := exists_fair hs hw
  exact ⟨r, hr, n, hw, mutex_correct.2.1 r hr n 1 hw⟩

end Suil.Async.Mutex
