import Suil.Async.Thread

/-! What one step of a thread can do: an inversion of `next` with one case per
outcome, and the object that each step is about. -/
namespace Suil.Async.Thread
open Transition DoublyLinked

/-- The outcomes of the steps, with what each of them has tested. -/
inductive Step (s : Sys) : Act → Sys → Prop
  | configure {e ion dd} (hco : s.co (.event e) = .outside)
      (hst : (s.cells (.event e)).state = .created) :
      Step s (.configure e ion dd)
        { s.setCell (.event e) { s.cells (.event e) with dd := dd } with
          ion := Function.update s.ion e ion }
  | awaitReady {t w coro} (hpc : s.pc (.thread t) = .idle) (hco : s.co w = .outside)
      (hst : (s.cells w).state = .fired) :
      Step s (.await t w coro) ((s.setCell w (resumedCell w (s.cells w))).setWaits w
        (⟨[], [], some .fired⟩ :: s.waits w))
  | awaitSuspend {t w coro} (hpc : s.pc (.thread t) = .idle) (hco : s.co w = .outside)
      (hst : (s.cells w).state = .created) :
      Step s (.await t w coro) ((((s.setCell w { s.cells w with coro := some coro }).setCo w
        (.suspending t)).setWaits w (.fresh :: s.waits w)).goto (.thread t)
        (.adding w (firstStage w)))
  | ctlOk {t fuel e op} (hpc : s.pc (.thread t) = .adding (.event e) (.ctl op))
      (hset : op = .add ↔ s.epoll (s.fd e) = none) :
      Step s (.add t fuel .ok)
        ({ s with epoll := Function.update s.epoll (s.fd e) (some ⟨e, s.ion e⟩) }.goto (.thread t)
          (.adding (.event e) (if 0 < (s.cells (.event e)).dd then .target else .store)))
  | ctlExist {t fuel e op} (hpc : s.pc (.thread t) = .adding (.event e) (.ctl op))
      (hset : op = .add → s.epoll (s.fd e) ≠ none) :
      Step s (.add t fuel .exist) (s.goto (.thread t) (.adding (.event e) (.ctl .mod)))
  | ctlFail {t fuel e op} (hpc : s.pc (.thread t) = .adding (.event e) (.ctl op)) :
      Step s (.add t fuel .fail) ((s.goto (.thread t) .idle).setCo (.event e) .suspended)
  | target {t fuel ans w} (hpc : s.pc (.thread t) = .adding w .target) :
      Step s (.add t fuel ans) (addTarget s t w)
  | link {t fuel ans w timers} (hpc : s.pc (.thread t) = .adding w .link)
      (hadd : addTimer s w fuel = some timers) :
      Step s (.add t fuel ans)
        (({ s with timers := timers }.setPending w true).goto (.thread t) (linkedPc w))
  | store {t fuel ans w} (hpc : s.pc (.thread t) = .adding w .store) :
      Step s (.add t fuel ans) (addStore s t w)
  | removeCall {t w} (hpc : s.pc (.thread t) = .idle) :
      Step s (.remove t w) (s.goto (.thread t) (.removing w))
  | removeLose {t w spurious} (hpc : s.pc (.thread t) = .removing w)
      (hst : spurious = true ∨ (s.cells w).state ≠ .scheduled) :
      Step s (.removeCas t spurious) (s.goto (.thread t) .idle)
  | removeWin {t w} (hpc : s.pc (.thread t) = .removing w)
      (hst : (s.cells w).state = .scheduled) :
      Step s (.removeCas t false) ((win (s.setState w .abandoned) w (.remove t)).goto (.thread t)
        (.finishing w (.remove t) (removeStage w)))
  | wait {batch} (hmode : s.mode = .polling) (hpc : s.pc .loop = .idle)
      (hb : ∀ r ∈ batch, ((s.epoll r.fd).any fun en =>
        en.ptr = r.ptr && r.flags.fits en.mask) = true) :
      Step s (.wait batch) { s with mode := .dispatching batch }
  | dispatchLose {r rest spurious} (hmode : s.mode = .dispatching (r :: rest))
      (hpc : s.pc .loop = .idle)
      (hst : spurious = true ∨ (s.cells (.event r.ptr)).state ≠ .scheduled) :
      Step s (.dispatch spurious) { s with mode := .dispatching rest }
  | dispatchWin {r rest} (hmode : s.mode = .dispatching (r :: rest)) (hpc : s.pc .loop = .idle)
      (hst : (s.cells (.event r.ptr)).state = .scheduled) :
      Step s (.dispatch false)
        ({ win (s.setState (.event r.ptr) .fired) (.event r.ptr) (.epoll r.flags) with
          mode := .dispatching rest }.goto .loop (.fired r.ptr r.flags))
  | storeFired {e flags} (hpc : s.pc .loop = .fired e flags) :
      Step s .storeFired ((s.setState (.event e) (if flags.failed then .error else .fired)).goto .loop
        (.finishing (.event e) (.epoll flags) .check))
  | beginExpire {now} (hmode : s.mode = .dispatching []) (hpc : s.pc .loop = .idle) :
      Step s (.beginExpire now) { s with mode := .expiring now }
  | popNone {tp} (hmode : s.mode = .expiring tp) (hpc : s.pc .loop = .idle) :
      Step s .popExpired { s with mode := .polling }
  | pop {tp w} (hmode : s.mode = .expiring tp) (hpc : s.pc .loop = .idle)
      (hfirst : s.timers.first = some w) (hdd : (s.cells w).dd ≤ tp) :
      Step s .popExpired
        (({ s with timers := (millListErase s.timers w).1 }.setPending w false).goto .loop (.popped w))
  | expireLose {it w spurious} (hpc : s.pc .loop = .popped it) (htarget : (s.cells it).target = some w)
      (hst : spurious = true ∨ (s.cells w).state ≠ .scheduled) :
      Step s (.expire spurious) (s.goto .loop .idle)
  | expireWin {it w} (hpc : s.pc .loop = .popped it) (htarget : (s.cells it).target = some w)
      (hst : (s.cells w).state = .scheduled) :
      Step s (.expire false) ((win (s.setState w (expiredState w)) w .timer).goto .loop
        (.finishing w .timer (expiredStage w)))
  | check {a w p} (hpc : s.pc a = .finishing w p .check) :
      Step s (.finish a)
        (s.goto a (.finishing w p (if (s.cells w).target = none then .del else .cancel)))
  | cancel {a w p} (hpc : s.pc a = .finishing w p .cancel) :
      Step s (.finish a) ((cancelTimer s w).goto a (.finishing w p .reset))
  | reset {a w p} (hpc : s.pc a = .finishing w p .reset) :
      Step s (.finish a) ((resetTimer s w).goto a (.finishing w p (afterReset w)))
  | del {a w p} (hpc : s.pc a = .finishing w p .del) :
      Step s (.finish a) ((delEntry s w).goto a (.finishing w p .resume))
  | resume {a w p} (hpc : s.pc a = .finishing w p .resume) (hcoro : (s.cells w).coro ≠ none) :
      Step s (.finish a) ((resume s w p).goto a .idle)
  | awaitResume {w} (hco : s.co w = .resumed) :
      Step s (.awaitResume w) (((s.setCell w (resumedCell w (s.cells w))).setCo w .outside).setWaits w
        ((s.waits w).modifyHead fun x => { x with result := some (s.cells w).state }))

variable {s s' : Sys} {act : Act}

theorem addCtl_step {t fuel e : ℕ} {op : CtlOp} {ans : CtlAnswer}
    (hpc : s.pc (.thread t) = .adding (.event e) (.ctl op)) (h : addCtl s t e op ans = some s') :
    Step s (.add t fuel ans) s' := by
  simp only [addCtl] at h
  split at h
  · cases h
  · cases ans with
    | ok =>
      by_cases hset : op = .add ↔ s.epoll (s.fd e) = none
      · simp only [epollCtl, hset, if_true, Option.some.injEq] at h
        exact h ▸ .ctlOk hpc hset
      · simp [epollCtl, hset] at h
    | exist =>
      by_cases hset : op = .add ∧ s.epoll (s.fd e) = none
      · simp [epollCtl, hset] at h
      · simp only [epollCtl, hset, if_false, Option.some.injEq] at h
        exact h ▸ .ctlExist hpc fun hop hn => hset ⟨hop, hn⟩
    | fail =>
      simp only [epollCtl, Option.some.injEq] at h
      exact h ▸ .ctlFail hpc

theorem addStep_step {t fuel : ℕ} {ans : CtlAnswer} (h : addStep s t fuel ans = some s') :
    Step s (.add t fuel ans) s' := by
  unfold addStep at h
  split at h
  · next e op hpc => exact addCtl_step hpc h
  · next w hpc =>
    cases h
    exact .target hpc
  · next w hpc =>
    obtain ⟨timers, hadd, rfl⟩ := Option.map_eq_some_iff.mp h
    exact .link hpc hadd
  · next e hpc =>
    cases h
    exact .store hpc
  · next d hpc =>
    split_ifs at h
    cases h
    exact .store hpc
  · cases h

theorem finish_step {a : Agent} (h : finish s a = some s') : Step s (.finish a) s' := by
  unfold finish at h
  split at h
  · next hpc => exact Option.some.inj h ▸ .check hpc
  · next hpc => exact Option.some.inj h ▸ .cancel hpc
  · next hpc => exact Option.some.inj h ▸ .reset hpc
  · next hpc => exact Option.some.inj h ▸ .del hpc
  · next hpc =>
    split_ifs at h with hcoro
    exact Option.some.inj h ▸ .resume hpc hcoro
  · cases h

theorem removeCas_step {t : ℕ} {spurious : Bool} (h : removeCas s t spurious = some s') :
    Step s (.removeCas t spurious) s' := by
  unfold removeCas at h
  split at h
  · next w hpc =>
    split_ifs at h with hst
    · exact Option.some.inj h ▸ .removeLose hpc hst
    · simp only [not_or, Bool.not_eq_true, ne_eq, not_not] at hst
      obtain ⟨rfl, hst⟩ := hst
      exact Option.some.inj h ▸ .removeWin hpc hst
  · cases h

theorem dispatch_step {spurious : Bool} (h : dispatch s spurious = some s') :
    Step s (.dispatch spurious) s' := by
  unfold dispatch at h
  split at h
  · next r rest hmode =>
    split_ifs at h with hpc hst
    · exact Option.some.inj h ▸ .dispatchLose hmode hpc hst
    · simp only [not_or, Bool.not_eq_true, ne_eq, not_not] at hst
      obtain ⟨rfl, hst⟩ := hst
      exact Option.some.inj h ▸ .dispatchWin hmode hpc hst
  · cases h

theorem storeFired_step (h : storeFired s = some s') : Step s .storeFired s' := by
  unfold storeFired at h
  split at h
  · next e flags hpc =>
    have hs := Step.storeFired hpc
    split_ifs at h with hf <;> cases h <;> simpa [hf] using hs
  · cases h

theorem popExpired_step (h : popExpired s = some s') : Step s .popExpired s' := by
  unfold popExpired at h
  split at h
  · next tp hmode =>
    split_ifs at h with hpc
    split at h
    · exact Option.some.inj h ▸ .popNone hmode hpc
    · next w hfirst =>
      split_ifs at h with hdd
      · exact Option.some.inj h ▸ .popNone hmode hpc
      · exact Option.some.inj h ▸ .pop hmode hpc hfirst (Int.not_lt.mp hdd)
  · cases h

theorem expire_step {spurious : Bool} (h : expire s spurious = some s') :
    Step s (.expire spurious) s' := by
  unfold expire at h
  split at h
  · next it hpc =>
    split at h
    · cases h
    · next w htarget =>
      split_ifs at h with hst
      · exact Option.some.inj h ▸ .expireLose hpc htarget hst
      · simp only [not_or, Bool.not_eq_true, ne_eq, not_not] at hst
        obtain ⟨rfl, hst⟩ := hst
        exact Option.some.inj h ▸ .expireWin hpc htarget hst
  · cases h

/-- Every step of the system is one of the outcomes. -/
theorem next_step (h : next s act = some s') : Step s act s' := by
  cases act with
  | configure e ion dd =>
    simp only [next, configure] at h
    split_ifs at h with hc
    exact Option.some.inj h ▸ .configure hc.1 hc.2
  | await t w coro =>
    simp only [next, await] at h
    split_ifs at h with hc hf hc'
    · exact Option.some.inj h ▸ .awaitReady hc.1 hc.2 hf
    · exact Option.some.inj h ▸ .awaitSuspend hc.1 hc.2 hc'
  | add t fuel ans => exact addStep_step h
  | remove t w =>
    simp only [next] at h
    split_ifs at h with hpc
    exact Option.some.inj h ▸ .removeCall hpc
  | removeCas t spurious => exact removeCas_step h
  | wait batch =>
    simp only [next, wait] at h
    split at h
    · next hmode =>
      split_ifs at h with hc
      exact Option.some.inj h ▸ .wait hmode hc.1 hc.2.2
    · cases h
  | dispatch spurious => exact dispatch_step h
  | storeFired => exact storeFired_step h
  | beginExpire now =>
    simp only [next, beginExpire] at h
    split at h
    · next hmode =>
      split_ifs at h with hpc
      exact Option.some.inj h ▸ .beginExpire hmode hpc
    · cases h
  | popExpired => exact popExpired_step h
  | expire spurious => exact expire_step h
  | finish a => exact finish_step h
  | awaitResume w =>
    simp only [next, awaitResume] at h
    split_ifs at h with hco
    exact Option.some.inj h ▸ .awaitResume hco

/-- The object an agent deals with. -/
def Pc.About (w : Waiter) : Pc → Prop
  | .adding w' _ => w' = w
  | .fired e _ => .event e = w
  | .popped w' => w' = w
  | .finishing w' _ _ => w' = w
  | _ => False

/-- Nothing that concerns the object `v` differs. -/
structure SameAt (s s' : Sys) (v : Waiter) : Prop where
  cells : s'.cells v = s.cells v
  co : s'.co v = s.co v
  waits : s'.waits v = s.waits v
  pending : s'.pending v = s.pending v
  pc : ∀ b pc, pc.About v → (s'.pc b = pc ↔ s.pc b = pc)

/-- A step of agent `a` on the object `w`. -/
structure StepAt (s s' : Sys) (a : Agent) (w : Waiter) : Prop where
  same : ∀ v, v ≠ w → SameAt s s' v
  others : ∀ b, b ≠ a → s'.pc b = s.pc b

variable {a : Agent} {v w : Waiter} {pc : Pc}

@[simp]
theorem cancelTimer_pc : (cancelTimer s w).pc = s.pc := by unfold cancelTimer; split <;> rfl

@[simp]
theorem cancelTimer_cells : (cancelTimer s w).cells = s.cells := by unfold cancelTimer; split <;> rfl

@[simp]
theorem cancelTimer_co : (cancelTimer s w).co = s.co := by unfold cancelTimer; split <;> rfl

@[simp]
theorem cancelTimer_waits : (cancelTimer s w).waits = s.waits := by unfold cancelTimer; split <;> rfl

@[simp]
theorem cancelTimer_epoll : (cancelTimer s w).epoll = s.epoll := by unfold cancelTimer; split <;> rfl

@[simp]
theorem cancelTimer_fd : (cancelTimer s w).fd = s.fd := by unfold cancelTimer; split <;> rfl

@[simp]
theorem cancelTimer_ion : (cancelTimer s w).ion = s.ion := by unfold cancelTimer; split <;> rfl

theorem cancelTimer_pending (hv : v ≠ w) : (cancelTimer s w).pending v = s.pending v := by
  unfold cancelTimer
  split <;> simp [hv]

@[simp]
theorem delEntry_pc : (delEntry s w).pc = s.pc := by cases w <;> rfl

@[simp]
theorem delEntry_cells : (delEntry s w).cells = s.cells := by cases w <;> rfl

@[simp]
theorem delEntry_co : (delEntry s w).co = s.co := by cases w <;> rfl

@[simp]
theorem delEntry_waits : (delEntry s w).waits = s.waits := by cases w <;> rfl

@[simp]
theorem delEntry_pending : (delEntry s w).pending = s.pending := by cases w <;> rfl

theorem expiredState_ne : expiredState w ≠ .created ∧ expiredState w ≠ .scheduled ∧
    expiredState w ≠ .abandoned := by cases w <;> simp [expiredState]

theorem linkedPc_about (h : (linkedPc w).About v) : v = w := by
  cases w <;> simp_all [linkedPc, Pc.About]

theorem storedPc_about (h : (storedPc w).About v) : v = w := by
  cases w <;> simp_all [storedPc, Pc.About]

theorem SameAt.of_goto (hpc : s'.pc = Function.update s.pc a pc) (before : ¬ (s.pc a).About v)
    (after : ¬ pc.About v) (cells : s'.cells v = s.cells v) (co : s'.co v = s.co v)
    (waits : s'.waits v = s.waits v) (pending : s'.pending v = s.pending v) : SameAt s s' v := by
  refine ⟨cells, co, waits, pending, fun b q hq => ?_⟩
  rw [hpc]
  by_cases hb : b = a
  · subst hb
    rw [Function.update_self]
    exact ⟨fun he => absurd (he ▸ hq) after, fun he => absurd (he ▸ hq) before⟩
  · rw [Function.update_of_ne hb]

/-- A step on `w` that takes the agent `a` from a counter about `w` to another. -/
theorem StepAt.of_goto (hpc : s'.pc = Function.update s.pc a pc)
    (before : ∀ v, (s.pc a).About v → v = w) (after : ∀ v, pc.About v → v = w)
    (cells : ∀ v, v ≠ w → s'.cells v = s.cells v) (co : ∀ v, v ≠ w → s'.co v = s.co v)
    (waits : ∀ v, v ≠ w → s'.waits v = s.waits v)
    (pending : ∀ v, v ≠ w → s'.pending v = s.pending v) : StepAt s s' a w where
  same v hv := .of_goto hpc (fun h => hv (before v h)) (fun h => hv (after v h)) (cells v hv)
    (co v hv) (waits v hv) (pending v hv)
  others b hb := by rw [hpc, Function.update_of_ne hb]

/-- A step on `w` that moves no program counter. -/
theorem StepAt.of_stay (hpc : s'.pc = s.pc)
    (cells : ∀ v, v ≠ w → s'.cells v = s.cells v) (co : ∀ v, v ≠ w → s'.co v = s.co v)
    (waits : ∀ v, v ≠ w → s'.waits v = s.waits v)
    (pending : ∀ v, v ≠ w → s'.pending v = s.pending v) : StepAt s s' a w where
  same v hv := ⟨cells v hv, co v hv, waits v hv, pending v hv, fun b q _ => by rw [hpc]⟩
  others b _ := by rw [hpc]

def Act.agent : Act → Agent
  | .await t _ _ | .add t _ _ | .remove t _ | .removeCas t _ => .thread t
  | .finish a => a
  | _ => .loop

/-- Any object for a counter that deals with none. -/
def Pc.object : Pc → Waiter
  | .adding w _ | .removing w | .popped w | .finishing w _ _ => w
  | .fired e _ => .event e
  | .idle => .event 0

/-- The object that a step is about. -/
def Act.object (s : Sys) : Act → Waiter
  | .configure e _ _ => .event e
  | .await _ w _ | .remove _ w | .awaitResume w => w
  | .dispatch _ => match s.mode with
    | .dispatching (r :: _) => .event r.ptr
    | _ => .event 0
  | .popExpired => s.timers.first.getD (.event 0)
  | act => (s.pc act.agent).object

theorem Act.object_eq (hobj : act.object s = v) (hpc : s.pc act.agent = pc)
    (hact : act.object s = (s.pc act.agent).object) : pc.object = v := by
  rw [← hpc, ← hact, hobj]

/-- A step changes nothing that concerns another object, given that the Timers
point at the objects they are in. -/
theorem Step.stepAt (h : Step s act s')
    (hself : ∀ w, (s.cells w).target = none ∨ (s.cells w).target = some w) :
    StepAt s s' act.agent (act.object s) := by
  cases h with
  | configure | awaitReady | wait | dispatchLose | beginExpire | popNone | awaitResume =>
    exact .of_stay rfl (by simp +contextual [*, Act.object]) (by simp +contextual [*, Act.object])
      (by simp +contextual [*, Act.object]) (by simp)
  | @expireLose it w _ hpc htarget hst | @expireWin it w hpc htarget hst =>
    obtain rfl : it = w := by simpa [htarget, eq_comm] using hself it
    refine .of_goto rfl ?_ ?_ ?_ ?_ ?_ ?_ <;>
      simp +contextual [Act.object, Pc.object, Pc.About, Act.agent, win, hpc]
  | @link t _ _ w _ hpc hadd =>
    rw [show Act.object s (.add t _ _) = w by simp only [Act.object, Act.agent, hpc, Pc.object]]
    refine .of_goto rfl ?_ (fun _ => linkedPc_about) ?_ ?_ ?_ ?_ <;>
      simp +contextual [Act.agent, Pc.About, hpc]
  | @store t _ _ w hpc =>
    rw [show Act.object s (.add t _ _) = w by simp only [Act.object, Act.agent, hpc, Pc.object]]
    refine .of_goto rfl ?_ (fun _ => storedPc_about) ?_ ?_ ?_ ?_ <;>
      simp +contextual [Act.agent, Pc.About, hpc, addStore]
  | @cancel a w _ hpc =>
    refine .of_goto (congrArg (Function.update · _ _) cancelTimer_pc) ?_ ?_ ?_ ?_ ?_ ?_ <;>
      simp +contextual [Act.object, Pc.object, Pc.About, Act.agent, hpc, cancelTimer_pending]
  | @del a w _ hpc =>
    refine .of_goto (congrArg (Function.update · _ _) delEntry_pc) ?_ ?_ ?_ ?_ ?_ ?_ <;>
      simp +contextual [Act.object, Pc.object, Pc.About, Act.agent, hpc]
  | @reset a w _ hpc =>
    refine .of_goto rfl ?_ ?_ ?_ ?_ ?_ ?_ <;>
      simp +contextual [Act.object, Pc.object, Pc.About, Act.agent, hpc, resetTimer]
  | @resume a w _ hpc =>
    refine .of_goto rfl ?_ ?_ ?_ ?_ ?_ ?_ <;>
      simp +contextual [Act.object, Pc.object, Pc.About, Act.agent, hpc, Thread.resume]
  | _ =>
    refine .of_goto rfl ?_ ?_ ?_ ?_ ?_ ?_ <;>
      simp +contextual [Act.object, Pc.object, Pc.About, Act.agent, win, addTarget, *]

end Suil.Async.Thread
