import Suil.Async.Completion

/-! The epoll set of one thread. It is keyed by descriptor while the waits are keyed
by Event: an `EPOLL_CTL_MOD` takes the entry of another Event, and nothing else does. -/
namespace Suil.Async.Thread
open Transition DoublyLinked

variable {s s' : Sys} {a b : Agent} {v w : Waiter} {p : Party} {pc : Pc} {t e : ℕ} {act : Act}

/-- Between the `EPOLL_CTL_ADD` and the `EPOLL_CTL_DEL` of the Event at `w`. -/
def Pc.Registers (w : Waiter) : Pc → Prop
  | .adding w' st => w' = w ∧ (st = .target ∨ st = .link ∨ st = .store)
  | .fired e _ => .event e = w
  | .finishing w' _ st => w' = w ∧ st ≠ .resume
  | _ => False

def Registered (s : Sys) (e : ℕ) : Prop :=
  (s.cells (.event e)).state = .scheduled ∨ ∃ a, (s.pc a).Registers (.event e)

/-- The entry of the Event for its descriptor. -/
def HasEntry (s : Sys) (e : ℕ) : Prop := s.epoll (s.fd e) = some ⟨e, s.ion e⟩

/-- No `EPOLL_CTL_MOD` succeeds. -/
def NeverModifies (s : Sys) : Act → Prop
  | .add t _ .ok => ∀ e, s.pc (.thread t) ≠ .adding (.event e) (.ctl .mod)
  | _ => True

theorem Pc.Registers.owns (h : pc.Registers (.event e)) : pc.Owns (.event e) := by
  cases pc <;> simp_all [Pc.Registers, Pc.Owns, AddStage.BeforeStore]

/-- An Event that the step schedules was registered before. -/
theorem Registered.of_scheduled (h : Step s act s') (hr : (s'.cells (.event e)).state = .scheduled) :
    Registered s e := by
  cases h with
  | @store t _ _ w hpc =>
    by_cases hw : w = .event e
    · exact .inr ⟨.thread t, by simp [hpc, hw, Pc.Registers]⟩
    · exact .inl (by simpa [addStore, Ne.symm hw] using hr)
  | @configure | @awaitSuspend | @target | @reset =>
    left
    simp [Function.update_apply, addTarget, resetTimer] at hr
    grind
  | _ =>
    left
    simp [Function.update_apply, win, Thread.resume] at hr
    grind [resumedCell, expiredState]

/-- The counter that a step leads to registers an Event that was registered before,
except after a successful `epoll_ctl`. -/
theorem Registered.of_registers (h : Step s act s')
    (hok : ∀ t n op, act = .add t n .ok → s.pc (.thread t) ≠ .adding (.event e) (.ctl op))
    (hr : (s'.pc act.agent).Registers (.event e)) : Registered s e := by
  cases h with
  | configure | awaitReady | wait | dispatchLose | beginExpire | popNone | awaitResume =>
    exact .inr ⟨_, hr⟩
  | @awaitSuspend t w =>
    cases w <;> simp [Act.agent, firstStage, Pc.Registers] at hr
  | @ctlOk t n e' op hpc =>
    simp only [Act.agent, Sys.goto_pc, Function.update_self, Pc.Registers, Waiter.event.injEq] at hr
    exact absurd (hr.1 ▸ hpc) (hok t n op rfl)
  | @target t _ _ w hpc =>
    simp only [Act.agent, addTarget, Sys.goto_pc, Function.update_self, Pc.Registers] at hr
    exact .inr ⟨.thread t, by simp [hpc, hr.1, Pc.Registers]⟩
  | @link t _ _ w _ hpc =>
    cases w with
    | event e' =>
      simp only [Act.agent, linkedPc, Sys.goto_pc, Function.update_self, Pc.Registers] at hr
      exact .inr ⟨.thread t, by simp [hpc, hr.1, Pc.Registers]⟩
    | delay d => simp [Act.agent, linkedPc, Pc.Registers] at hr
  | @store t _ _ w hpc => cases w <;> simp [Act.agent, addStore, storedPc, Pc.Registers] at hr
  | @removeWin t w hpc hst =>
    simp only [Act.agent, Sys.goto_pc, Function.update_self, Pc.Registers] at hr
    exact .inl (hr.1 ▸ hst)
  | dispatchWin hmode hpc hst =>
    simp only [Act.agent, Sys.goto_pc, Function.update_self, Pc.Registers] at hr
    exact .inl (hr ▸ hst)
  | storeFired hpc =>
    simp only [Act.agent, Sys.goto_pc, Function.update_self, Pc.Registers] at hr
    exact .inr ⟨.loop, by simp [hpc, hr.1, Pc.Registers]⟩
  | expireWin hpc htarget hst =>
    simp only [Act.agent, Sys.goto_pc, Function.update_self, Pc.Registers] at hr
    exact .inl (hr.1 ▸ hst)
  | check hpc | cancel hpc | reset hpc =>
    simp only [Act.agent, Sys.goto_pc, Function.update_self, Pc.Registers] at hr
    exact .inr ⟨_, by rw [hpc]; exact ⟨hr.1, by simp⟩⟩
  | _ => simp [Act.agent, Pc.Registers] at hr

/-- An Event is registered after a step only if it was before, or an `epoll_ctl` has succeeded. -/
theorem Registered.of_step (hl : ∀ v, Local s v) (h : Step s act s')
    (hok : ∀ t n op, act = .add t n .ok → s.pc (.thread t) ≠ .adding (.event e) (.ctl op))
    (hr : Registered s' e) : Registered s e := by
  rcases hr with hr | ⟨b, hb⟩
  · exact .of_scheduled h hr
  · by_cases hba : b = act.agent
    · exact .of_registers h hok (hba ▸ hb)
    · rw [(h.stepAt fun w => (hl w).self).others b hba] at hb
      exact .inr ⟨b, hb⟩

theorem not_registered (hl : Local s (.event e)) (hco : s.co (.event e) = .outside)
    (hst : (s.cells (.event e)).state ≠ .scheduled) : ¬ Registered s e := by
  rintro (h | ⟨a, ha⟩)
  exacts [hst h, hl.unowned (.inl hco) a ha.owns]

theorem not_registered_del (hl : Local s (.event e)) (hpc : s.pc a = .finishing (.event e) p .del) :
    ¬ Registered ((delEntry s (.event e)).goto a (.finishing (.event e) p .resume)) e := by
  obtain ⟨-, -, hno, hst, -⟩ := hl.finishing hpc
  rintro (h | ⟨b, hb⟩)
  · rw [Sys.goto_cells, delEntry_cells, hst] at h
    exact cause_ne.1 h
  · by_cases hba : b = a
    · simp [hba, Pc.Registers] at hb
    · simp only [Sys.goto_pc, delEntry_pc, Function.update_of_ne hba] at hb
      exact hno b hba hb.owns

/-- A successful `EPOLL_CTL_ADD` finds no entry for the descriptor. -/
theorem HasEntry.ctlOk {e' : ℕ} {st : AddStage} (he : HasEntry s e)
    (hnone : s.epoll (s.fd e') = none) : HasEntry ({ s with
      epoll := Function.update s.epoll (s.fd e') (some ⟨e', s.ion e'⟩) }.goto (.thread t)
      (.adding (.event e') st)) e := by
  have hne : s.fd e ≠ s.fd e' := by
    intro hfd
    cases he.symm.trans (hfd ▸ hnone)
  simpa [HasEntry, Function.update_of_ne hne] using he

/-- `EPOLL_CTL_DEL` takes the entry of the Event whose wait is over. -/
theorem HasEntry.del {e' : ℕ} (he : HasEntry s e) (he' : HasEntry s e') (hne : e ≠ e') :
    HasEntry ((delEntry s (.event e')).goto a (.finishing (.event e') p .resume)) e := by
  have hne : s.fd e ≠ s.fd e' := by
    intro hfd
    have heq := he.symm.trans ((congrArg s.epoll hfd).trans he')
    simp [hne] at heq
  simpa [HasEntry, delEntry, Function.update_of_ne hne] using he

/-- Every registered Event has its entry. -/
theorem hasEntry_inductive : system.InductiveUnder NeverModifies (fun s => ∀ v, Local s v)
    fun s => ∀ e, Registered s e → HasEntry s e where
  init := by
    rintro _ ⟨fd, ion, dd, rfl⟩ e hr
    simp [Registered, Sys.start, Pc.Registers] at hr
  step s act s' hl he hok h e hr := by
    have hstep := next_step h
    have hback := fun hk => hr.of_step hl hstep hk
    cases hstep with
    | @ctlOk t n e' op hpc hset =>
      have hop : op = .add := by
        cases op with
        | add => rfl
        | mod => exact absurd hpc (hok e')
      by_cases hee : e = e'
      · subst hee
        simp [HasEntry]
      · refine (he e (hback fun t' n' op' hact hpc' => ?_)).ctlOk (hset.mp hop)
        cases hact
        cases hpc.symm.trans hpc'
        exact hee rfl
    | @del a w p hpc =>
      have hr' := hback (by simp)
      cases w with
      | event e' =>
        refine (he e hr').del (he e' (.inr ⟨a, by simp [hpc, Pc.Registers]⟩)) ?_
        rintro rfl
        exact not_registered_del (hl _) hpc hr
      | delay d => exact he e hr'
    | target hpc | link hpc | store hpc =>
      have hr' := hback fun t n op hact hpc' => by
        cases hact
        cases hpc.symm.trans hpc'
      exact he e hr'
    | @configure e' _ _ hco hst =>
      have hr' := hback (by simp)
      have hne : e ≠ e' := by
        rintro rfl
        exact not_registered (hl _) hco (by simp [hst]) hr'
      simpa [HasEntry, hne] using he e hr'
    | cancel => simpa [HasEntry] using he e (hback (by simp))
    | _ => exact he e (hback (by simp))

/-- Every scheduled Event has an entry for its descriptor, with its own address and direction. -/
def WaitersRegistered (s : Sys) : Prop :=
  ∀ e, (s.cells (.event e)).state = .scheduled →
    ∃ en, s.epoll (s.fd e) = some en ∧ en.ptr = e ∧ en.mask = s.ion e

theorem waiters_registered (h : system.ReachableBy NeverModifies s) : WaitersRegistered s := by
  intro e hst
  have he := hasEntry_inductive.holds (fun _ hs => Local.of_reachable hs.reachable) h e (.inl hst)
  exact ⟨_, he, rfl, rfl⟩

/-- A test that is enough for `NeverModifies`. -/
def addsFirst (s : Sys) : Act → Bool
  | .add t _ _ => match s.pc (.thread t) with
    | .adding _ (.ctl .mod) => false
    | _ => true
  | _ => true

theorem neverModifies_of_addsFirst (s : Sys) (act : Act) (h : addsFirst s act = true) :
    NeverModifies s act := by
  cases act with
  | add t fuel ans =>
    cases ans with
    | ok =>
      intro e hpc
      simp [addsFirst, hpc] at h
    | exist | fail => trivial
  | _ => trivial

/-- A read and a write on two descriptors; the read completes. -/
def readThenWrite : List Act :=
  [.await 0 (.event 0) 7, .add 0 0 .ok, .add 0 0 .ok, .await 1 (.event 1) 8, .add 1 0 .ok,
    .add 1 0 .ok, .wait [⟨5, 0, ⟨true, false, false, false⟩⟩], .dispatch false, .storeFired,
    .finish .loop, .finish .loop, .finish .loop]

theorem waiters_registered_readThenWrite : ∃ s, system.ReachableBy NeverModifies s ∧
    (s.cells (.event 1)).state = .scheduled ∧ s.co (.event 0) = .resumed ∧ WaitersRegistered s := by
  obtain ⟨s, hs, hp⟩ := system.exists_reachableBy_of_runIf addsFirst readThenWrite
    (fun s => (s.cells (.event 1)).state = .scheduled && s.co (.event 0) = .resumed)
    neverModifies_of_addsFirst
    ⟨fun e => 5 + e, fun e => if e = 0 then .IN else .OUT, fun _ => 0, rfl⟩ (by decide)
  simp only [Bool.and_eq_true, decide_eq_true_eq] at hp
  exact ⟨s, hs, hp.1, hp.2, waiters_registered hs⟩

/-- A read and a write wait on one descriptor: the second `add` goes on to `EPOLL_CTL_MOD`. -/
def readAndWrite : List Act :=
  [.await 0 (.event 0) 7, .add 0 0 .ok, .add 0 0 .ok, .await 1 (.event 1) 8, .add 1 0 .exist,
    .add 1 0 .ok, .add 1 0 .ok]

theorem registration_lost : ¬ ∀ s, system.Reachable s → WaitersRegistered s := by
  intro h
  obtain ⟨s, hs, hp⟩ := system.exists_reachable_of_run readAndWrite
    (fun s => (s.cells (.event 0)).state = .scheduled && s.epoll (s.fd 0) = some ⟨1, .OUT⟩)
    ⟨fun _ => 5, fun e => if e = 0 then .IN else .OUT, fun _ => 0, rfl⟩ (by decide)
  simp only [Bool.and_eq_true, decide_eq_true_eq] at hp
  obtain ⟨en, hen, hptr, -⟩ := h s hs 0 hp.1
  cases hen.symm.trans hp.2
  cases hptr

end Suil.Async.Thread
