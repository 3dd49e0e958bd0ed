import Suil.Async.Steps

/-! Each wait completes at most once and reports its cause. The invariant is
local to one object: its state, its coroutine, the record of its waits and the
program counters that deal with it. It holds of every run, whatever becomes of
the timer list. -/
namespace Suil.Async.Thread
open Transition DoublyLinked

/-- An epoll report is about an Event. -/
def Party.Ends : Waiter → Party → Prop
  | .delay _, .epoll _ => False
  | _, _ => True

/-- What the completion of a wait on `w` by the party `p` writes into the state. -/
def cause : Waiter → Party → State
  | .event _, .epoll flags => if flags.failed then .error else .fired
  | .event _, .timer => .timeout
  | .delay _, .epoll _ => .fired
  | .delay _, .timer => .fired
  | _, .remove _ => .abandoned

/-- A wait that has run to its end. -/
def Wait.Done (w : Waiter) (x : Wait) : Prop :=
  ∃ p, p.Ends w ∧ x = ⟨[p], [p], some (cause w p)⟩

/-- The steps of `add` before the object can be completed. -/
def AddStage.BeforeStore : Waiter → AddStage → Prop
  | .event _, _ => True
  | .delay _, st => st = .store

/-- The agent of `p` is between its compare-exchange and its `resume()`. -/
def Completing (s : Sys) (w : Waiter) (p : Party) : Prop :=
  (∃ st, s.pc p.agent = .finishing w p st) ∨
    ∃ e flags, w = .event e ∧ p = .epoll flags ∧ s.pc .loop = .fired e flags

def Phase (s : Sys) (w : Waiter) : Prop :=
  match s.co w with
  | .outside => (s.cells w).state = .created ∧ ∀ x ∈ s.waits w, x.Done w
  | .suspending _ =>
    (s.cells w).state = .created ∧ ∃ rest, s.waits w = .fresh :: rest ∧ ∀ x ∈ rest, x.Done w
  | .suspended => ∃ rest, (∀ x ∈ rest, x.Done w) ∧
      ((s.waits w = .fresh :: rest ∧
          ((s.cells w).state = .created ∨ (s.cells w).state = .scheduled)) ∨
        ∃ p, p.Ends w ∧ s.waits w = ⟨[p], [], none⟩ :: rest ∧ Completing s w p)
  | .resumed => ∃ p rest, p.Ends w ∧ s.waits w = ⟨[p], [p], none⟩ :: rest ∧
      (∀ x ∈ rest, x.Done w) ∧ (s.cells w).state = cause w p

/-- The agent may be before the store of `add` or between a compare-exchange it
has won and its `resume()`. -/
def Pc.Owns (w : Waiter) : Pc → Prop
  | .adding w' st => w' = w ∧ st.BeforeStore w
  | .fired e _ => .event e = w
  | .finishing w' _ _ => w' = w
  | _ => False

/-- What is known of the object `w` when agent `a` owns it with the counter `pc`. -/
def Owner (s : Sys) (w : Waiter) (a : Agent) : Pc → Prop
  | .adding _ _ => ∃ t, a = .thread t ∧ s.co w = .suspending t
  | .fired _ flags => a = .loop ∧ s.co w = .suspended ∧
    (∃ rest, s.waits w = ⟨[.epoll flags], [], none⟩ :: rest) ∧ (s.cells w).state = .fired
  | .finishing _ p _ => a = p.agent ∧ s.co w = .suspended ∧
    (∃ rest, s.waits w = ⟨[p], [], none⟩ :: rest) ∧ (s.cells w).state = cause w p
  | _ => True

/-- The invariant at one object. -/
structure Local (s : Sys) (w : Waiter) : Prop where
  self : (s.cells w).target = none ∨ (s.cells w).target = some w
  coro : s.co w ≠ .outside → (s.cells w).coro ≠ none
  phase : Phase s w
  owner : ∀ a, (s.pc a).Owns w → Owner s w a (s.pc a)
  suspending : ∀ t, s.co w = .suspending t → ∃ st, s.pc (.thread t) = .adding w st ∧ st.BeforeStore w

variable {s s' : Sys} {a b : Agent} {v w : Waiter} {p : Party} {pc : Pc} {t : ℕ}
  {act : Act}

theorem Pc.Owns.about (h : pc.Owns w) : pc.About w := by
  cases pc <;> simp_all [Pc.Owns, Pc.About]

theorem Completing.same (h : SameAt s s' v) (hc : Completing s v p) : Completing s' v p := by
  rcases hc with ⟨st, hst⟩ | ⟨e, flags, rfl, rfl, hpc⟩
  · exact .inl ⟨st, (h.pc _ _ (by exact rfl)).mpr hst⟩
  · exact .inr ⟨e, flags, rfl, rfl, (h.pc _ _ (by exact rfl)).mpr hpc⟩

theorem Local.same (hl : Local s v) (h : SameAt s s' v) : Local s' v where
  self := h.cells ▸ hl.self
  coro := by
    rw [h.cells, h.co]
    exact hl.coro
  phase := by
    have hp := hl.phase
    unfold Phase at hp ⊢
    rw [h.co, h.cells, h.waits]
    split <;> simp only [*] at hp ⊢
    · exact hp
    · exact hp
    · obtain ⟨rest, hr, hc⟩ := hp
      exact ⟨rest, hr, hc.imp_right fun ⟨p, he, hw, hc⟩ => ⟨p, he, hw, hc.same h⟩⟩
    · exact hp
  owner b hb := by
    have hpc := (h.pc b _ hb.about).mp rfl
    rw [← hpc] at hb ⊢
    have ho := hl.owner b hb
    unfold Owner at ho ⊢
    rw [h.co, h.waits, h.cells]
    exact ho
  suspending t ht := by
    obtain ⟨st, hst, hb⟩ := hl.suspending t (h.co ▸ ht)
    exact ⟨st, (h.pc _ _ (by exact rfl)).mpr hst, hb⟩

/-- At most one agent owns an object. -/
theorem Local.sole (hl : Local s w) (ha : (s.pc a).Owns w) (hb : (s.pc b).Owns w) : b = a := by
  have hoa := hl.owner a ha
  have hob := hl.owner b hb
  cases hpa : s.pc a <;> cases hpb : s.pc b <;>
    simp only [hpa, hpb, Pc.Owns, Owner, Party.agent] at ha hb hoa hob <;> grind [Party.agent]

/-- Nobody owns an object that is not awaited, or whose wait nobody has won. -/
theorem Local.unowned (hl : Local s w) (h : s.co w = .outside ∨ s.co w = .resumed ∨
    s.co w = .suspended ∧ (s.cells w).state = .scheduled) (a : Agent) : ¬ (s.pc a).Owns w := by
  intro ha
  have ho := hl.owner a ha
  cases hpa : s.pc a <;> simp only [hpa, Pc.Owns, Owner] at ha ho
  · grind
  · grind
  · have : cause w ‹Party› ≠ .scheduled := by
      unfold cause
      split <;> simp
      split <;> simp
    grind

theorem cause_ne : cause w p ≠ .scheduled ∧ cause w p ≠ .created := by
  unfold cause
  split <;> simp
  split <;> simp

/-- A wait that can be won has not been won. -/
theorem Local.scheduled (hl : Local s w) (h : (s.cells w).state = .scheduled) :
    s.co w = .suspended ∧ ∃ rest, s.waits w = .fresh :: rest ∧ ∀ x ∈ rest, x.Done w := by
  have hp := hl.phase
  unfold Phase at hp
  split at hp
  · simp [h] at hp
  · simp [h] at hp
  · rename_i hco
    obtain ⟨rest, hr, ⟨hw, -⟩ | ⟨p, -, hw, hc⟩⟩ := hp
    · exact ⟨hco, rest, hw, hr⟩
    · rcases hc with ⟨st, hst⟩ | ⟨e, flags, rfl, rfl, hpc⟩
      · have := hl.owner p.agent (by rw [hst]; exact rfl)
        simp only [hst, Owner, h] at this
        exact absurd this.2.2.2.symm cause_ne.1
      · have := hl.owner .loop (by rw [hpc]; exact rfl)
        simp [hpc, Owner, h] at this
  · obtain ⟨p, rest, -, -, -, hs⟩ := hp
    exact absurd (hs.symm.trans h) cause_ne.1

/-- A step of an agent that shares the object with nobody. -/
theorem Local.here (h : StepAt s s' a w)
    (hs : ∀ b, b ≠ a → ¬ (s.pc b).Owns w)
    (self : (s'.cells w).target = none ∨ (s'.cells w).target = some w)
    (coro : s'.co w ≠ .outside → (s'.cells w).coro ≠ none) (phase : Phase s' w)
    (owner : (s'.pc a).Owns w → Owner s' w a (s'.pc a))
    (suspending : ∀ t, s'.co w = .suspending t →
      a = .thread t ∧ ∃ st, s'.pc a = .adding w st ∧ st.BeforeStore w) : Local s' w where
  self := self
  coro := coro
  phase := phase
  owner b hb := by
    by_cases hba : b = a
    · exact hba ▸ owner (hba ▸ hb)
    · exact absurd (h.others b hba ▸ hb) (hs b hba)
  suspending t ht := by
    obtain ⟨rfl, hst⟩ := suspending t ht
    exact hst

/-- A step that leaves the wait and the owner of the object alone. -/
theorem Local.aside (hl : Local s w) (h : StepAt s s' a w)
    (hb : ¬ (s.pc a).Owns w) (ha : ¬ (s'.pc a).Owns w)
    (self : (s'.cells w).target = none ∨ (s'.cells w).target = some w)
    (state : (s'.cells w).state = (s.cells w).state) (coro : (s'.cells w).coro = (s.cells w).coro)
    (co : s'.co w = s.co w) (waits : s'.waits w = s.waits w) : Local s' w := by
  have hpc : ∀ b, (s.pc b).Owns w → s'.pc b = s.pc b := fun b hbo =>
    h.others b fun hba => hb (hba ▸ hbo)
  refine ⟨self, by rw [co, coro]; exact hl.coro, ?_, fun b hbo => ?_, fun t ht => ?_⟩
  · have hp := hl.phase
    unfold Phase at hp ⊢
    rw [co, state, waits]
    split <;> simp only [*] at hp ⊢
    · exact hp
    · exact hp
    · obtain ⟨rest, hr, hc⟩ := hp
      refine ⟨rest, hr, hc.imp_right ?_⟩
      rintro ⟨p, he, hw, ⟨st, hst⟩ | ⟨e, flags, rfl, rfl, hst⟩⟩
      · exact ⟨p, he, hw, .inl ⟨st, (hpc _ (by rw [hst]; exact rfl)).trans hst⟩⟩
      · exact ⟨_, he, hw, .inr ⟨e, flags, rfl, rfl, (hpc _ (by rw [hst]; exact rfl)).trans hst⟩⟩
    · exact hp
  · have hba : b ≠ a := fun hba => ha (hba ▸ hbo)
    rw [h.others b hba] at hbo ⊢
    have ho := hl.owner b hbo
    unfold Owner at ho ⊢
    rw [co, waits, state]
    exact ho
  · obtain ⟨st, hst, hbs⟩ := hl.suspending t (co ▸ ht)
    exact ⟨st, (hpc _ (by rw [hst]; exact ⟨rfl, hbs⟩)).trans hst, hbs⟩

/-- What is known of the object that `add` has not yet stored `scheduled` in. -/
theorem Local.adding {st : AddStage} (hl : Local s w) (hpc : s.pc (.thread t) = .adding w st)
    (hb : st.BeforeStore w) : s.co w = .suspending t ∧ (∀ b, b ≠ .thread t → ¬ (s.pc b).Owns w) ∧
      (s.cells w).state = .created ∧ ∃ rest, s.waits w = .fresh :: rest ∧ ∀ x ∈ rest, x.Done w := by
  have ha : (s.pc (.thread t)).Owns w := by
    rw [hpc]
    exact ⟨rfl, hb⟩
  have ho := hl.owner _ ha
  simp only [hpc, Owner, Agent.thread.injEq] at ho
  obtain ⟨t', rfl, hco⟩ := ho
  have hp := hl.phase
  simp only [Phase, hco] at hp
  exact ⟨hco, fun b hne hbo => hne (hl.sole ha hbo), hp⟩

/-- What is known of the object whose wait agent `a` completes. -/
theorem Local.finishing {st : FinishStage} (hl : Local s w) (hpc : s.pc a = .finishing w p st) :
    a = p.agent ∧ s.co w = .suspended ∧ (∀ b, b ≠ a → ¬ (s.pc b).Owns w) ∧
      (s.cells w).state = cause w p ∧ p.Ends w ∧
      ∃ rest, s.waits w = ⟨[p], [], none⟩ :: rest ∧ ∀ x ∈ rest, x.Done w := by
  have ha : (s.pc a).Owns w := by
    rw [hpc]
    exact rfl
  have ho := hl.owner _ ha
  simp only [hpc, Owner] at ho
  obtain ⟨hag, hco, ⟨rest, hwa⟩, hst⟩ := ho
  have hp := hl.phase
  simp only [Phase, hco, hwa] at hp
  obtain ⟨rest', hr, ⟨hw', -⟩ | ⟨q, he, hw', -⟩⟩ := hp
  · simp [Wait.fresh] at hw'
  · simp only [List.cons.injEq, Wait.mk.injEq, and_true] at hw'
    obtain ⟨rfl, rfl⟩ := hw'
    exact ⟨hag, hco, fun b hne hbo => hne (hl.sole ha hbo), hst, he, rest, hwa, hr⟩

/-- What is known of the Event between the two stores of the epoll dispatch. -/
theorem Local.fired {e : ℕ} {flags : Flags} (hl : Local s (.event e))
    (hpc : s.pc .loop = .fired e flags) :
    s.co (.event e) = .suspended ∧ (∀ b, b ≠ .loop → ¬ (s.pc b).Owns (.event e)) ∧
      (s.cells (.event e)).state = .fired ∧ ∃ rest, s.waits (.event e) = ⟨[.epoll flags], [], none⟩ :: rest ∧
        ∀ x ∈ rest, x.Done (.event e) := by
  have ha : (s.pc .loop).Owns (.event e) := by
    rw [hpc]
    exact rfl
  have ho := hl.owner _ ha
  simp only [hpc, Owner, true_and] at ho
  obtain ⟨hco, ⟨rest, hwa⟩, hst⟩ := ho
  have hp := hl.phase
  simp only [Phase, hco, hwa] at hp
  refine ⟨hco, fun b hne hbo => hne (hl.sole ha hbo), hst, rest, hwa, ?_⟩
  obtain ⟨rest', hr, ⟨hw', -⟩ | ⟨q, -, hw', -⟩⟩ := hp <;> simp_all [Wait.fresh]

/-- `add` goes on, and has not yet stored `scheduled`. -/
theorem Local.adds {st st' : AddStage} (hl : Local s w) (h : StepAt s s' (.thread t) w)
    (hpc : s.pc (.thread t) = .adding w st) (hpc' : s'.pc (.thread t) = .adding w st')
    (hb : st.BeforeStore w) (hb' : st'.BeforeStore w)
    (self : (s'.cells w).target = none ∨ (s'.cells w).target = some w)
    (state : (s'.cells w).state = (s.cells w).state) (coro : (s'.cells w).coro = (s.cells w).coro)
    (co : s'.co w = s.co w) (waits : s'.waits w = s.waits w) : Local s' w := by
  obtain ⟨hco, hno, hst, hwa⟩ := hl.adding hpc hb
  refine .here h hno self (by rw [co, coro]; exact hl.coro) ?_ (fun _ => ?_) fun t' ht => ?_
  · simp only [Phase, co, hco, state, hst, waits, hwa, true_and]
  · rw [hpc']
    exact ⟨t, rfl, co.trans hco⟩
  · rw [co, hco] at ht
    cases ht
    exact ⟨rfl, st', hpc', hb'⟩

/-- An agent wins the compare-exchange out of `scheduled`. -/
theorem Local.wins (hl : Local s w) (h : StepAt s s' a w) (hst : (s.cells w).state = .scheduled)
    (hag : a = p.agent) (he : p.Ends w)
    (hpc : (∃ st, s'.pc a = .finishing w p st) ∧ (s'.cells w).state = cause w p ∨
      ∃ e flags, w = .event e ∧ p = .epoll flags ∧ s'.pc a = .fired e flags ∧
        (s'.cells w).state = .fired)
    (self : (s'.cells w).target = (s.cells w).target) (coro : (s'.cells w).coro = (s.cells w).coro)
    (co : s'.co w = s.co w)
    (waits : s'.waits w = (s.waits w).modifyHead fun x => { x with wins := x.wins ++ [p] }) :
    Local s' w := by
  obtain ⟨hco, rest, hwa, hr⟩ := hl.scheduled hst
  have hwa' : s'.waits w = ⟨[p], [], none⟩ :: rest := by simp [waits, hwa, Wait.fresh]
  have hno := hl.unowned (.inr (.inr ⟨hco, hst⟩))
  refine .here h (fun b _ => hno b) (self ▸ hl.self) (by rw [co, coro]; exact hl.coro) ?_ ?_ ?_
  · simp only [Phase, co, hco]
    refine ⟨rest, hr, .inr ⟨p, he, hwa', ?_⟩⟩
    rcases hpc with ⟨⟨st, hpc⟩, -⟩ | ⟨e, flags, hw, rfl, hpc, -⟩
    · exact .inl ⟨st, hag ▸ hpc⟩
    · exact .inr ⟨e, flags, hw, rfl, by rw [← hpc, hag]; rfl⟩
  · rcases hpc with ⟨⟨st, hpc⟩, hs⟩ | ⟨e, flags, -, rfl, hpc, hs⟩ <;> intro <;> rw [hpc]
    · exact ⟨hag, co.trans hco, ⟨rest, hwa'⟩, hs⟩
    · exact ⟨hag, co.trans hco, ⟨rest, hwa'⟩, hs⟩
  · simp [co, hco]

/-- The winner of a wait goes on to the `resume()` of its coroutine. -/
theorem Local.completes {st : FinishStage} (hl : Local s w) (h : StepAt s s' a w)
    (hag : a = p.agent) (hco : s.co w = .suspended) (hno : ∀ b, b ≠ a → ¬ (s.pc b).Owns w)
    (he : p.Ends w) (hwa : ∃ rest, s.waits w = ⟨[p], [], none⟩ :: rest ∧ ∀ x ∈ rest, x.Done w)
    (hpc : s'.pc a = .finishing w p st) (state : (s'.cells w).state = cause w p)
    (self : (s'.cells w).target = none ∨ (s'.cells w).target = some w)
    (coro : (s'.cells w).coro = (s.cells w).coro) (co : s'.co w = s.co w)
    (waits : s'.waits w = s.waits w) : Local s' w := by
  obtain ⟨rest, hwa, hr⟩ := hwa
  refine .here h hno self (by rw [co, coro]; exact hl.coro) ?_ (fun _ => ?_) (by simp [co, hco])
  · simp only [Phase, co, hco]
    exact ⟨rest, hr, .inr ⟨p, he, waits.trans hwa, .inl ⟨st, hag ▸ hpc⟩⟩⟩
  · rw [hpc]
    exact ⟨hag, co.trans hco, ⟨rest, waits.trans hwa⟩, state⟩

/-- The winner of a wait takes another step towards the `resume()` of its coroutine. -/
theorem Local.goesOn {st st' : FinishStage} (hl : Local s w) (h : StepAt s s' a w)
    (hpc : s.pc a = .finishing w p st) (hpc' : s'.pc a = .finishing w p st')
    (state : (s'.cells w).state = (s.cells w).state)
    (self : (s'.cells w).target = none ∨ (s'.cells w).target = some w)
    (coro : (s'.cells w).coro = (s.cells w).coro) (co : s'.co w = s.co w)
    (waits : s'.waits w = s.waits w) : Local s' w := by
  obtain ⟨hag, hco, hno, hst, he, hwa⟩ := hl.finishing hpc
  exact hl.completes h hag hco hno he hwa hpc' (state.trans hst) self coro co waits

theorem Local.step_await {coro : ℕ} (hl : Local s w) (hco : s.co w = .outside)
    (hst : (s.cells w).state = .created)
    (hs : s' = (((s.setCell w { s.cells w with coro := some coro }).setCo w
      (.suspending t)).setWaits w (.fresh :: s.waits w)).goto (.thread t)
        (.adding w (firstStage w)))
    (h : StepAt s s' (.thread t) w) : Local s' w := by
  have hno := hl.unowned (.inl hco)
  have hph := hl.phase
  have hself := hl.self
  simp only [Phase, hco] at hph
  have hb : (firstStage w).BeforeStore w := by cases w <;> simp [firstStage, AddStage.BeforeStore]
  subst hs
  refine .here h (fun b _ => hno b) ?_ ?_ ?_ ?_ ?_
  · simpa using hself
  · simp
  · simpa [Phase, hst] using hph.2
  · simp [Owner]
  · simp +contextual [hb]

/-- A registration that fails leaves the coroutine suspended for good. -/
theorem Local.step_ctlFail {e : ℕ} {op : CtlOp} (hl : Local s (.event e))
    (hpc : s.pc (.thread t) = .adding (.event e) (.ctl op))
    (h : StepAt s ((s.goto (.thread t) .idle).setCo (.event e) .suspended) (.thread t) (.event e)) :
    Local ((s.goto (.thread t) .idle).setCo (.event e) .suspended) (.event e) := by
  obtain ⟨hco, hno, hst, rest, hwa, hr⟩ := hl.adding hpc trivial
  refine .here h hno hl.self (fun _ => hl.coro (by simp [hco])) ?_ ?_ ?_
  · simp only [Phase, Sys.setCo_co, Function.update_self]
    exact ⟨rest, hr, .inl ⟨hwa, .inl hst⟩⟩
  · simp [Pc.Owns]
  · simp

theorem Local.step_store (hl : Local s w) (hpc : s.pc (.thread t) = .adding w .store)
    (h : StepAt s (addStore s t w) (.thread t) w) : Local (addStore s t w) w := by
  have hb : AddStage.store.BeforeStore w := by cases w <;> simp [AddStage.BeforeStore]
  obtain ⟨hco, hno, hst, rest, hwa, hr⟩ := hl.adding hpc hb
  have hself := hl.self
  have hcoro := hl.coro (by simp [hco])
  refine .here h hno (by simpa [addStore] using hself) (by simpa [addStore] using hcoro) ?_ ?_ ?_
  · simp only [Phase, addStore, Sys.goto_co, Sys.setCo_co, Function.update_self]
    exact ⟨rest, hr, .inl ⟨hwa, .inr (by simp)⟩⟩
  · cases w <;> simp [addStore, storedPc, Pc.Owns, AddStage.BeforeStore]
  · simp [addStore]

theorem Local.step_resume (hl : Local s w) (hpc : s.pc a = .finishing w p .resume)
    (hcoro : (s.cells w).coro ≠ none) (h : StepAt s ((Thread.resume s w p).goto a .idle) a w) :
    Local ((Thread.resume s w p).goto a .idle) w := by
  obtain ⟨hag, hco, hno, hst, he, rest, hwa, hr⟩ := hl.finishing hpc
  refine .here h hno hl.self (fun _ => hcoro) ?_ ?_ ?_
  · simpa [Phase, Thread.resume, hwa, hst] using ⟨he, hr⟩
  · simp [Pc.Owns]
  · simp [Thread.resume]

theorem Local.step_awaitResume (hl : Local s w) (hco : s.co w = .resumed)
    (hs : s' = ((s.setCell w (resumedCell w (s.cells w))).setCo w .outside).setWaits w
      ((s.waits w).modifyHead fun x => { x with result := some (s.cells w).state }))
    (h : StepAt s s' a w) : Local s' w := by
  have hno := hl.unowned (.inr (.inl hco))
  have hph := hl.phase
  have hself := hl.self
  simp only [Phase, hco] at hph
  obtain ⟨p, rest, he, hwa, hr, hst⟩ := hph
  subst hs
  refine .here h (fun b _ => hno b) ?_ ?_ ?_ (fun h => absurd h (hno _)) ?_
  · cases w <;> simpa [resumedCell] using hself
  · simp
  · simp only [Phase, Sys.setWaits_co, Sys.setCo_co, Function.update_self]
    refine ⟨by cases w <;> simp [resumedCell], ?_⟩
    simpa [hwa, hst] using ⟨⟨p, he, rfl⟩, hr⟩
  · simp

theorem Local.step_configure {e : ℕ} {ion : Direction} {dd : Int} (hl : Local s (.event e))
    (hco : s.co (.event e) = .outside)
    (hs : s' = { s.setCell (.event e) { s.cells (.event e) with dd := dd } with
      ion := Function.update s.ion e ion })
    (h : StepAt s s' a (.event e)) : Local s' (.event e) := by
  have hno := hl.unowned (.inl hco)
  have hph := hl.phase
  have hself := hl.self
  simp only [Phase, hco] at hph
  subst hs
  exact .here h (fun b _ => hno b) (by simpa using hself) (by simp [hco])
    (by simpa [Phase, hco] using hph) (fun h => absurd h (hno _)) (by simp [hco])

/-- An Event is not yet scheduled when its Timer gets a target, and a Delay is. -/
theorem Local.step_target (hl : Local s w) (hpc : s.pc (.thread t) = .adding w .target)
    (h : StepAt s (addTarget s t w) (.thread t) w) : Local (addTarget s t w) w := by
  cases w with
  | event e =>
    exact hl.adds h hpc (Function.update_self ..) trivial trivial (by simp [addTarget])
      (by simp [addTarget]) (by simp [addTarget]) rfl rfl
  | delay d =>
    exact hl.aside h (by simp [hpc, Pc.Owns, AddStage.BeforeStore])
      (by simp [addTarget, Pc.Owns, AddStage.BeforeStore]) (by simp [addTarget])
      (by simp [addTarget]) (by simp [addTarget]) rfl rfl

theorem Local.step_link {timers : Links Waiter} (hl : Local s w)
    (hpc : s.pc (.thread t) = .adding w .link)
    (hs : s' = ({ s with timers := timers }.setPending w true).goto (.thread t) (linkedPc w))
    (h : StepAt s s' (.thread t) w) : Local s' w := by
  subst hs
  cases w with
  | event e => exact hl.adds h hpc (Function.update_self ..) trivial trivial hl.self rfl rfl rfl rfl
  | delay d =>
    exact hl.aside h (by simp [hpc, Pc.Owns, AddStage.BeforeStore]) (by simp [linkedPc, Pc.Owns])
      hl.self rfl rfl rfl rfl

theorem Local.step_removeWin (hl : Local s w) (hst : (s.cells w).state = .scheduled)
    (hs : s' = (win (s.setState w .abandoned) w (.remove t)).goto (.thread t)
      (.finishing w (.remove t) (removeStage w)))
    (h : StepAt s s' (.thread t) w) : Local s' w := by
  subst hs
  refine hl.wins h hst rfl (by cases w <;> trivial) (.inl ⟨⟨_, Function.update_self ..⟩, ?_⟩)
    ?_ ?_ rfl ?_ <;> simp [win]
  cases w <;> rfl

theorem Local.step_dispatchWin {e : ℕ} {flags : Flags} {mode : Mode} (hl : Local s (.event e))
    (hst : (s.cells (.event e)).state = .scheduled)
    (hs : s' = { win (s.setState (.event e) .fired) (.event e) (.epoll flags) with
      mode := mode }.goto .loop (.fired e flags))
    (h : StepAt s s' .loop (.event e)) : Local s' (.event e) := by
  subst hs
  refine hl.wins h hst rfl trivial (.inr ⟨e, flags, rfl, rfl, by simp, ?_⟩) ?_ ?_ rfl ?_ <;>
    simp [win]

theorem Local.step_storeFired {e : ℕ} {flags : Flags} (hl : Local s (.event e))
    (hpc : s.pc .loop = .fired e flags)
    (hs : s' = (s.setState (.event e) (if flags.failed then .error else .fired)).goto .loop
      (.finishing (.event e) (.epoll flags) .check))
    (h : StepAt s s' .loop (.event e)) : Local s' (.event e) := by
  obtain ⟨hco, hno, -, hwa⟩ := hl.fired hpc
  have hself := hl.self
  have hpc' : s'.pc .loop = .finishing (.event e) (.epoll flags) .check := by simp [hs]
  subst hs
  exact hl.completes h rfl hco hno trivial hwa hpc' (by simp [cause]) (by simpa using hself)
    (by simp) rfl rfl

theorem Local.step_expireWin (hl : Local s w) (hst : (s.cells w).state = .scheduled)
    (hs : s' = (win (s.setState w (expiredState w)) w .timer).goto .loop
      (.finishing w .timer (expiredStage w)))
    (h : StepAt s s' .loop w) : Local s' w := by
  subst hs
  refine hl.wins (p := .timer) h hst rfl (by cases w <;> trivial)
    (.inl ⟨⟨expiredStage w, by simp⟩, ?_⟩) ?_ ?_ rfl ?_ <;> simp [win]
  cases w <;> rfl

theorem Local.step_at (hl : ∀ v, Local s v) (h : Step s act s') (hobj : act.object s = v) :
    Local s' v := by
  have hat := h.stepAt fun w => (hl w).self
  rw [hobj] at hat
  have hv := hl v
  cases h with
  | @configure e _ _ hco hst =>
    subst hobj
    exact hv.step_configure hco rfl hat
  | @awaitReady t w coro hpc hco hst =>
    have hph := (hl w).phase
    simp [Phase, hco, hst] at hph
  | @awaitSuspend t w coro hpc hco hst =>
    subst hobj
    exact hv.step_await hco hst rfl hat
  | @ctlOk t _ e op hpc hset =>
    obtain rfl : Waiter.event e = v := Act.object_eq hobj hpc rfl
    exact hv.adds hat hpc (Function.update_self ..) trivial trivial hv.self rfl rfl rfl rfl
  | @ctlExist t _ e op hpc hset =>
    obtain rfl : Waiter.event e = v := Act.object_eq hobj hpc rfl
    exact hv.adds hat hpc (Function.update_self ..) trivial trivial hv.self rfl rfl rfl rfl
  | @ctlFail t _ e op hpc =>
    obtain rfl : Waiter.event e = v := Act.object_eq hobj hpc rfl
    exact hv.step_ctlFail hpc hat
  | @target t _ _ w hpc =>
    obtain rfl : w = v := Act.object_eq hobj hpc rfl
    exact hv.step_target hpc hat
  | @link t _ _ w _ hpc hadd =>
    obtain rfl : w = v := Act.object_eq hobj hpc rfl
    exact hv.step_link hpc rfl hat
  | @store t _ _ w hpc =>
    obtain rfl : w = v := Act.object_eq hobj hpc rfl
    exact hv.step_store hpc hat
  | @removeCall t w hpc | @removeLose t w _ hpc hst =>
    exact hv.aside hat (by simp [Act.agent, hpc, Pc.Owns]) (by simp [Act.agent, Pc.Owns])
      hv.self rfl rfl rfl rfl
  | @removeWin t w hpc hst =>
    obtain rfl : w = v := Act.object_eq hobj hpc rfl
    exact hv.step_removeWin hst rfl hat
  | wait hmode hpc | beginExpire hmode hpc | popNone hmode hpc | dispatchLose hmode hpc =>
    exact hv.aside hat (by simp [Act.agent, hpc, Pc.Owns]) (by simp [Act.agent, hpc, Pc.Owns])
      hv.self rfl rfl rfl rfl
  | @dispatchWin r rest hmode hpc hst =>
    obtain rfl : Waiter.event r.ptr = v := by simpa [Act.object, hmode] using hobj
    exact hv.step_dispatchWin hst rfl hat
  | @storeFired e flags hpc =>
    obtain rfl : Waiter.event e = v := Act.object_eq hobj hpc rfl
    exact hv.step_storeFired hpc rfl hat
  | pop hmode hpc | expireLose hpc =>
    exact hv.aside hat (by simp [Act.agent, hpc, Pc.Owns]) (by simp [Act.agent, Pc.Owns])
      hv.self rfl rfl rfl rfl
  | @expireWin it w hpc htarget hst =>
    obtain rfl : it = v := Act.object_eq hobj hpc rfl
    obtain rfl : it = w := by simpa [htarget, eq_comm] using hv.self
    exact hv.step_expireWin hst rfl hat
  | @check a w p hpc =>
    obtain rfl : w = v := Act.object_eq hobj hpc rfl
    exact hv.goesOn hat hpc (Function.update_self ..) rfl hv.self rfl rfl rfl
  | @cancel a w p hpc =>
    obtain rfl : w = v := Act.object_eq hobj hpc rfl
    exact hv.goesOn hat hpc (Function.update_self ..) (by simp) (by simpa using hv.self) (by simp)
      (by simp) (by simp)
  | @reset a w p hpc =>
    obtain rfl : w = v := Act.object_eq hobj hpc rfl
    exact hv.goesOn hat hpc (Function.update_self ..) (by simp [resetTimer]) (by simp [resetTimer])
      (by simp [resetTimer]) rfl rfl
  | @del a w p hpc =>
    obtain rfl : w = v := Act.object_eq hobj hpc rfl
    exact hv.goesOn hat hpc (Function.update_self ..) (by simp) (by simpa using hv.self) (by simp)
      (by simp) (by simp)
  | @resume a w p hpc hcoro =>
    obtain rfl : w = v := Act.object_eq hobj hpc rfl
    exact hv.step_resume hpc hcoro hat
  | @awaitResume w hco =>
    subst hobj
    exact hv.step_awaitResume hco rfl hat

theorem Local.step (hl : ∀ v, Local s v) (h : Step s act s') (v : Waiter) : Local s' v := by
  by_cases hv : v = act.object s
  · exact Local.step_at hl h hv.symm
  · exact (hl v).same ((h.stepAt fun w => (hl w).self).same v hv)

theorem Local.init (fd : ℕ → Int) (ion : ℕ → Direction) (dd : Waiter → Int) (v : Waiter) :
    Local (.start fd ion dd) v := by
  refine ⟨?_, ?_, ?_, ?_, ?_⟩ <;> simp [Sys.start, Phase, Pc.Owns]

theorem local_inductive : system.Inductive (fun _ _ => True) fun s => ∀ v, Local s v where
  init := by
    rintro _ ⟨fd, ion, dd, rfl⟩
    exact Local.init fd ion dd
  step _ _ _ hl _ h := Local.step hl (next_step h)

theorem Local.of_reachable (h : system.Reachable s) (v : Waiter) : Local s v :=
  local_inductive.holds h v

/-- What `await_resume` returns, by the party that has ended the wait. -/
def Reports (v : State) (p : Party) : Waiter → Prop
  | .event _ => (v = .fired ∨ v = .error ↔ ∃ flags, p = .epoll flags) ∧
      (v = .error ↔ ∃ flags, p = .epoll flags ∧ flags.failed = true) ∧
      (v = .timeout ↔ p = .timer) ∧ (v = .abandoned ↔ ∃ t, p = .remove t)
  | .delay _ => (v = .fired ↔ p = .timer) ∧ (v = .abandoned ↔ ∃ t, p = .remove t)

/-- One wait: at most one party has won it, only that party resumes the coroutine and
only once, and the coroutine reads what has happened. -/
structure Wait.Sound (w : Waiter) (x : Wait) : Prop where
  wins : x.wins.length ≤ 1
  resumes : x.resumes = [] ∨ x.resumes = x.wins
  result : ∀ v, x.result = some v → ∃ p, x.wins = [p] ∧ x.resumes = [p] ∧ Reports v p w

theorem cause_reports (he : p.Ends w) : Reports (cause w p) p w := by
  cases w with
  | event e =>
    cases p with
    | epoll flags => cases hf : flags.failed <;> simp [Reports, cause, hf]
    | timer | remove t => simp [Reports, cause]
  | delay d =>
    cases p with
    | epoll flags => exact he.elim
    | timer | remove t => simp [Reports, cause]

theorem Wait.Done.sound {x : Wait} (h : x.Done w) : x.Sound w := by
  obtain ⟨p, he, rfl⟩ := h
  exact ⟨by simp, .inr rfl, fun v hv => ⟨p, rfl, rfl, Option.some.inj hv ▸ cause_reports he⟩⟩

theorem Local.sound (hl : Local s w) : ∀ x ∈ s.waits w, x.Sound w := by
  have hph := hl.phase
  unfold Phase at hph
  split at hph
  · exact fun x hx => (hph.2 x hx).sound
  · obtain ⟨-, rest, hwa, hr⟩ := hph
    simp only [hwa, List.forall_mem_cons]
    exact ⟨⟨by simp [Wait.fresh], by simp [Wait.fresh], by simp [Wait.fresh]⟩,
      fun x hx => (hr x hx).sound⟩
  · obtain ⟨rest, hr, ⟨hwa, -⟩ | ⟨p, -, hwa, -⟩⟩ := hph <;>
      simp only [hwa, List.forall_mem_cons]
    · exact ⟨⟨by simp [Wait.fresh], by simp [Wait.fresh], by simp [Wait.fresh]⟩,
        fun x hx => (hr x hx).sound⟩
    · exact ⟨⟨by simp, by simp, by simp⟩, fun x hx => (hr x hx).sound⟩
  · obtain ⟨p, rest, -, hwa, hr, -⟩ := hph
    simp only [hwa, List.forall_mem_cons]
    exact ⟨⟨by simp, by simp, by simp⟩, fun x hx => (hr x hx).sound⟩

/-- Every wait is resumed at most once, by the winner of its compare-exchange, and
`await_resume` returns the true cause. -/
theorem waits_sound (h : system.Reachable s) : ∀ w, ∀ x ∈ s.waits w, x.Sound w :=
  fun w => (Local.of_reachable h w).sound

/-- A read that becomes ready. -/
def readReady : List Act :=
  [.await 0 (.event 0) 7, .add 0 0 .ok, .add 0 0 .ok, .wait [⟨5, 0, ⟨true, false, false, false⟩⟩],
    .dispatch false, .storeFired, .finish .loop, .finish .loop, .finish .loop,
    .awaitResume (.event 0)]

theorem waits_sound_readReady : ∃ s, system.Reachable s ∧
    s.waits (.event 0) = [⟨[.epoll ⟨true, false, false, false⟩],
      [.epoll ⟨true, false, false, false⟩], some .fired⟩] ∧
    ∀ w, ∀ x ∈ s.waits w, x.Sound w := by
  obtain ⟨s, hs, hw⟩ := system.exists_reachable_of_run readReady
    (fun s => decide (s.waits (.event 0) = [⟨[.epoll ⟨true, false, false, false⟩],
      [.epoll ⟨true, false, false, false⟩], some .fired⟩]))
    ⟨fun _ => 5, fun _ => .IN, fun _ => 0, rfl⟩ (by decide)
  exact ⟨s, hs, of_decide_eq_true hw, waits_sound hs⟩

end Suil.Async.Thread
