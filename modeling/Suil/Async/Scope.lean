import Suil.Lib.Transition
import Mathlib.Data.Finset.Card

/-! `AsyncScope`: `spawn`, on_work_started, on_work_finished and `join`. The spawned tasks
are numbered; each comes from a call outside the tasks, before the join, or from inside a
task that runs. One step is one access to `_count` or `_continuation`, or a `resume()`. -/
namespace Suil.Async.Scope
open Transition

/-- Where a spawned task is: before the assertion of on_work_started and before its
increment, with the task that called `spawn`, if any; in its body, with the calls of `spawn` in
progress inside it; after the last decrement of on_work_finished. A task fails by the assertion or by
the `resume()` of an unset continuation. -/
inductive Pc
  | unspawned
  | check (caller : Option ℕ)
  | add (caller : Option ℕ)
  | running (calls : List ℕ)
  | resuming
  | finished
  | failed
  deriving DecidableEq

/-- Where the coroutine that awaits `join()` is: before it, in await_ready, before the two
steps of await_suspend, suspended, gone on. -/
inductive Joiner
  | before
  | ready
  | store
  | sub
  | suspended
  | goneOn
  deriving DecidableEq

/-- `continuation` says whether `_continuation` is set; `outside` are the calls of `spawn` from
outside the tasks that are in progress; `wentOn` counts how often the joiner has gone on. -/
structure State where
  count : ℤ
  continuation : Bool
  joiner : Joiner
  outside : List ℕ
  pc : ℕ → Pc
  wentOn : ℕ

def State.start : State where
  count := 1
  continuation := false
  joiner := .before
  outside := []
  pc _ := .unspawned
  wentOn := 0

def State.goto (s : State) (t : ℕ) (pc : Pc) : State := { s with pc := Function.update s.pc t pc }

def State.goOn (s : State) : State := { s with joiner := .goneOn, wentOn := s.wentOn + 1 }

/-- The call of `spawn` that has started `t` returns. -/
def State.returned (s : State) (t : ℕ) : Option ℕ → State
  | none => { s with outside := s.outside.erase t }
  | some p =>
    match s.pc p with
    | .running calls => s.goto p (.running (calls.erase t))
    | _ => s

def taskStep (s : State) (t : ℕ) : Option State :=
  match s.pc t with
  | .check caller => some (s.goto t (if s.count ≠ 0 then .add caller else .failed))
  | .add caller => some ({ s.returned t caller with count := s.count + 1 }.goto t (.running []))
  | .running [] =>
    some ({ s with count := s.count - 1 }.goto t (if s.count = 1 then .resuming else .finished))
  | .resuming => some (if s.continuation then s.goOn.goto t .finished else s.goto t .failed)
  | _ => none

def joinStep (s : State) : Option State :=
  match s.joiner with
  | .before => if s.outside = [] then some { s with joiner := .ready } else none
  | .ready => some (if s.count = 0 then s.goOn else { s with joiner := .store })
  | .store => some { s with continuation := true, joiner := .sub }
  | .sub =>
    if s.count > 1 then some { s with count := s.count - 1, joiner := .suspended }
    else some { s with count := s.count - 1 }.goOn
  | .suspended => none
  | .goneOn => none

inductive Act
  | spawn (caller : Option ℕ) (t : ℕ)
  | task (t : ℕ)
  | join

def next (s : State) : Act → Option State
  | .spawn none t =>
    if s.joiner = .before ∧ s.pc t = .unspawned then
      some ({ s with outside := t :: s.outside }.goto t (.check none))
    else none
  | .spawn (some p) t =>
    match s.pc p with
    | .running calls =>
      if s.pc t = .unspawned then
        some ((s.goto p (.running (t :: calls))).goto t (.check (some p)))
      else none
    | _ => none
  | .task t => taskStep s t
  | .join => joinStep s

def system : System State Act where
  init s := s = .start
  next := next

/-- The task has been counted and not yet been discounted. -/
def Pc.Running : Pc → Prop
  | .running _ => True
  | _ => False

/-- The task is in the call of `spawn` by this caller. -/
def Pc.Starting (caller : Option ℕ) (pc : Pc) : Prop :=
  pc = .check caller ∨ pc = .add caller

/-- The unit that the joiner holds until the last step of await_suspend. -/
def Joiner.unit : Joiner → ℤ
  | .suspended | .goneOn => 0
  | _ => 1

/-- `_count` is the joiner's unit and one for each task that runs. -/
def Counted (s : State) : Prop :=
  ∃ active : Finset ℕ, (∀ t, t ∈ active ↔ (s.pc t).Running) ∧ s.count = s.joiner.unit + active.card

structure Inv (s : State) : Prop where
  count : Counted s
  outside : ∀ t, (s.pc t).Starting none → t ∈ s.outside
  before : s.outside ≠ [] → s.joiner = .before
  caller : ∀ t p, (s.pc t).Starting (some p) → ∃ calls, s.pc p = .running calls ∧ t ∈ calls
  resuming : ∀ t, s.pc t = .resuming → s.joiner = .suspended ∧ s.count = 0
  sole : ∀ t u, s.pc t = .resuming → s.pc u = .resuming → t = u
  stored : s.joiner = .sub ∨ s.joiner = .suspended → s.continuation = true
  suspended : s.joiner = .suspended → s.count = 0 → ∃ t, s.pc t = .resuming
  goneOn : s.joiner = .goneOn → s.count = 0
  once : s.wentOn = if s.joiner = .goneOn then 1 else 0
  fine : ∀ t, s.pc t ≠ .failed

variable {s s' : State} {t u p : ℕ} {pc : Pc} {caller : Option ℕ}

@[simp] theorem goto_pc : (s.goto t pc).pc u = if u = t then pc else s.pc u := by
  simp [State.goto, Function.update_apply]

theorem running_goto (h : (s.pc t).Running ↔ pc.Running) (u : ℕ) :
    ((s.goto t pc).pc u).Running ↔ (s.pc u).Running := by
  rw [goto_pc]
  split_ifs with hut
  · rw [hut, h]
  · rfl

theorem resuming_goto (h : s.pc t ≠ .resuming) (h' : pc ≠ .resuming) (u : ℕ) :
    (s.goto t pc).pc u = .resuming ↔ s.pc u = .resuming := by
  rw [goto_pc]
  split_ifs with hut
  · rw [hut]
    exact iff_of_false h' h
  · rfl

theorem failed_goto (h : ∀ u, s.pc u ≠ .failed) (h' : pc ≠ .failed) (u : ℕ) :
    (s.goto t pc).pc u ≠ .failed := by
  rw [goto_pc]
  split_ifs
  · exact h'
  · exact h u

theorem inv_start : Inv .start where
  count := ⟨∅, by simp [State.start, Pc.Running], rfl⟩
  outside t h := by simp [State.start, Pc.Starting] at h
  before h := absurd rfl h
  caller t p h := by simp [State.start, Pc.Starting] at h
  resuming t h := by simp [State.start] at h
  sole t u h := by simp [State.start] at h
  stored h := by simp [State.start] at h
  suspended h := by simp [State.start] at h
  goneOn h := by simp [State.start] at h
  once := rfl
  fine t := by simp [State.start]

theorem Joiner.unit_nonneg (j : Joiner) : 0 ≤ j.unit := by
  cases j <;> simp [Joiner.unit]

theorem Inv.count_nonneg (h : Inv s) : 0 ≤ s.count := by
  obtain ⟨active, -, hcount⟩ := h.count
  have := s.joiner.unit_nonneg
  omega

theorem Inv.unit_le (h : Inv s) : s.joiner.unit ≤ s.count := by
  obtain ⟨active, -, hcount⟩ := h.count
  omega

/-- A task that runs is counted. -/
theorem Inv.count_running (h : Inv s) (hp : (s.pc t).Running) : s.joiner.unit + 1 ≤ s.count := by
  obtain ⟨active, hactive, hcount⟩ := h.count
  have hpos : 0 < active.card := Finset.card_pos.mpr ⟨t, (hactive t).mpr hp⟩
  omega

/-- Work is only started while some unit is held. -/
theorem Inv.count_starting (h : Inv s) (ht : (s.pc t).Starting caller) : 1 ≤ s.count := by
  cases caller with
  | none =>
    have hbefore := h.before (List.ne_nil_of_mem (h.outside t ht))
    have hunit := h.unit_le
    simpa [hbefore, Joiner.unit] using hunit
  | some p =>
    obtain ⟨calls, hp, -⟩ := h.caller t p ht
    have hcount := h.count_running (t := p) (by rw [hp]; trivial)
    have hunit := s.joiner.unit_nonneg
    omega

/-- Without a unit no task is spawned or runs. -/
theorem Inv.settled (h : Inv s) (h0 : s.count = 0) (hr : s.pc t ≠ .resuming) :
    s.pc t = .unspawned ∨ s.pc t = .finished := by
  cases hpc : s.pc t with
  | unspawned => exact .inl rfl
  | finished => exact .inr rfl
  | resuming => exact absurd hpc hr
  | failed => exact absurd hpc (h.fine t)
  | running calls =>
    have hcount := h.count_running (t := t) (by rw [hpc]; trivial)
    have hunit := s.joiner.unit_nonneg
    omega
  | check caller =>
    have hcount := h.count_starting (t := t) (.inl hpc)
    omega
  | add caller =>
    have hcount := h.count_starting (t := t) (.inr hpc)
    omega

theorem Counted.congr (h : Counted s) (hr : ∀ u, (s'.pc u).Running ↔ (s.pc u).Running)
    (hc : s'.count - s'.joiner.unit = s.count - s.joiner.unit) : Counted s' := by
  obtain ⟨active, hactive, hcount⟩ := h
  refine ⟨active, fun u => ?_, by omega⟩
  rw [hactive, hr]

theorem Counted.started (h : Counted s) (ht : ¬ (s.pc t).Running)
    (hr : ∀ u, (s'.pc u).Running ↔ u = t ∨ (s.pc u).Running)
    (hj : s'.joiner = s.joiner) (hc : s'.count = s.count + 1) : Counted s' := by
  obtain ⟨active, hactive, hcount⟩ := h
  have hnot : t ∉ active := fun hmem => ht ((hactive t).mp hmem)
  refine ⟨insert t active, fun u => ?_, ?_⟩
  · rw [Finset.mem_insert, hactive, hr]
  · rw [Finset.card_insert_of_notMem hnot, hj]
    push_cast
    omega

theorem Counted.finished (h : Counted s) (ht : (s.pc t).Running)
    (hr : ∀ u, (s'.pc u).Running ↔ u ≠ t ∧ (s.pc u).Running)
    (hj : s'.joiner = s.joiner) (hc : s'.count = s.count - 1) : Counted s' := by
  obtain ⟨active, hactive, hcount⟩ := h
  have hmem : t ∈ active := (hactive t).mpr ht
  have hcard := Finset.card_erase_add_one hmem
  refine ⟨active.erase t, fun u => ?_, ?_⟩
  · rw [Finset.mem_erase, hactive, hr]
  · rw [hj]
    omega

/-- A step that is seen neither in `_count` nor by the joiner. -/
theorem Inv.quiet (h : Inv s) (hcount : s'.count = s.count)
    (hcont : s'.continuation = s.continuation) (hj : s'.joiner = s.joiner)
    (hw : s'.wentOn = s.wentOn) (hrun : ∀ u, (s'.pc u).Running ↔ (s.pc u).Running)
    (hres : ∀ u, s'.pc u = .resuming ↔ s.pc u = .resuming) (hfine : ∀ u, s'.pc u ≠ .failed)
    (hout : ∀ u, (s'.pc u).Starting none → u ∈ s'.outside)
    (hbefore : s'.outside ≠ [] → s.joiner = .before)
    (hcaller : ∀ u p, (s'.pc u).Starting (some p) → ∃ calls, s'.pc p = .running calls ∧ u ∈ calls) :
    Inv s' where
  count := h.count.congr hrun (by rw [hcount, hj])
  outside := hout
  before := by rw [hj]; exact hbefore
  caller := hcaller
  resuming u hu := by rw [hj, hcount]; exact h.resuming u ((hres u).mp hu)
  sole u v hu hv := h.sole u v ((hres u).mp hu) ((hres v).mp hv)
  stored := by rw [hj, hcont]; exact h.stored
  suspended := by simpa only [hj, hcount, hres] using h.suspended
  goneOn := by rw [hj, hcount]; exact h.goneOn
  once := by rw [hw, hj]; exact h.once
  fine := hfine

theorem Inv.spawnOutside (h : Inv s) (hj : s.joiner = .before) (ht : s.pc t = .unspawned) :
    Inv ({ s with outside := t :: s.outside }.goto t (.check none)) := by
  refine h.quiet rfl rfl rfl rfl (running_goto (by simp [ht, Pc.Running]))
    (resuming_goto (by simp [ht]) (by simp)) (failed_goto h.fine (by simp)) (fun u hu => ?_)
    (fun _ => hj) fun u p hu => ?_
  · rw [goto_pc] at hu
    split_ifs at hu with hut
    · exact hut ▸ List.mem_cons_self
    · exact List.mem_cons_of_mem t (h.outside u hu)
  · rw [goto_pc] at hu
    split_ifs at hu with hut
    · simp [Pc.Starting] at hu
    · obtain ⟨calls, hp, hmem⟩ := h.caller u p hu
      have hpt : p ≠ t := by
        rintro rfl
        cases hp.symm.trans ht
      exact ⟨calls, by rw [goto_pc, if_neg hpt, hp], hmem⟩

theorem Inv.spawnInside {calls : List ℕ} (h : Inv s) (hp : s.pc p = .running calls)
    (ht : s.pc t = .unspawned) :
    Inv ((s.goto p (.running (t :: calls))).goto t (.check (some p))) := by
  have hpt : p ≠ t := by
    rintro rfl
    cases hp.symm.trans ht
  have htp : (s.goto p (.running (t :: calls))).pc t = .unspawned := by
    rw [goto_pc, if_neg hpt.symm, ht]
  refine h.quiet rfl rfl rfl rfl (fun u => ?_) (fun u => ?_)
    (failed_goto (failed_goto h.fine (by simp)) (by simp)) (fun u hu => ?_) h.before
    fun u q hu => ?_
  · rw [running_goto (by rw [htp]; exact Iff.rfl), running_goto (by simp [hp, Pc.Running])]
  · rw [resuming_goto (by rw [htp]; simp) (by simp), resuming_goto (by simp [hp]) (by simp)]
  · rw [goto_pc, goto_pc] at hu
    split_ifs at hu with hut hup
    · simp [Pc.Starting] at hu
    · simp [Pc.Starting] at hu
    · exact h.outside u hu
  · rw [goto_pc, goto_pc] at hu
    rw [goto_pc, goto_pc]
    split_ifs at hu with hut hup
    · obtain rfl : p = q := by simpa [Pc.Starting] using hu
      exact ⟨t :: calls, by rw [if_neg hpt, if_pos rfl], hut ▸ List.mem_cons_self⟩
    · simp [Pc.Starting] at hu
    · obtain ⟨l, hq, hmem⟩ := h.caller u q hu
      have hqt : q ≠ t := by
        rintro rfl
        cases hq.symm.trans ht
      by_cases hqp : q = p
      · subst hqp
        cases hq.symm.trans hp
        exact ⟨t :: calls, by rw [if_neg hqt, if_pos rfl], List.mem_cons_of_mem t hmem⟩
      · exact ⟨l, by rw [if_neg hqt, if_neg hqp, hq], hmem⟩

/-- The assertion of on_work_started holds. -/
theorem Inv.check (h : Inv s) (ht : s.pc t = .check caller) : Inv (s.goto t (.add caller)) := by
  refine h.quiet rfl rfl rfl rfl (running_goto (by simp [ht, Pc.Running]))
    (resuming_goto (by simp [ht]) (by simp)) (failed_goto h.fine (by simp)) (fun u hu => ?_)
    h.before fun u q hu => ?_
  · refine h.outside u ?_
    rw [goto_pc] at hu
    split_ifs at hu with hut
    · obtain rfl : caller = none := by simpa [Pc.Starting] using hu
      exact .inl (hut ▸ ht)
    · exact hu
  · have hu' : (s.pc u).Starting (some q) := by
      rw [goto_pc] at hu
      split_ifs at hu with hut
      · obtain rfl : caller = some q := by simpa [Pc.Starting] using hu
        exact .inl (hut ▸ ht)
      · exact hu
    obtain ⟨calls, hq, hmem⟩ := h.caller u q hu'
    have hqt : q ≠ t := by
      rintro rfl
      cases hq.symm.trans ht
    exact ⟨calls, by rw [goto_pc, if_neg hqt, hq], hmem⟩

/-- The caller of `spawn` goes on; what it has counted stays. -/
theorem returned_pc (hp : ∀ p, caller = some p → ∃ calls, s.pc p = .running calls) :
    (∀ u, ((s.returned t caller).pc u).Running ↔ (s.pc u).Running) ∧
      ∀ u, ¬ (s.pc u).Running → (s.returned t caller).pc u = s.pc u := by
  cases caller with
  | none => exact ⟨fun _ => Iff.rfl, fun _ _ => rfl⟩
  | some p =>
    obtain ⟨calls, hp⟩ := hp p rfl
    simp only [State.returned, hp, goto_pc]
    refine ⟨fun u => ?_, fun u hu => ?_⟩
    · split_ifs with hup
      · simp [hup, hp, Pc.Running]
      · rfl
    · rw [if_neg]
      rintro rfl
      exact hu (by rw [hp]; trivial)

theorem Pc.Starting.not_running (h : pc.Starting caller) : ¬ pc.Running := by
  rcases h with rfl | rfl <;> exact id

theorem mem_returned_outside (hu : u ∈ s.outside) (hut : u ≠ t) :
    u ∈ (s.returned t caller).outside := by
  cases caller with
  | none => exact (List.mem_erase_of_ne hut).mpr hu
  | some p =>
    simp only [State.returned]
    split <;> exact hu

theorem outside_of_returned (h : (s.returned t caller).outside ≠ []) : s.outside ≠ [] := by
  intro h0
  refine h ?_
  cases caller with
  | none => simp [State.returned, h0]
  | some p =>
    simp only [State.returned]
    split <;> exact h0

theorem returned_running {calls : List ℕ} (hp : s.pc p = .running calls) (hu : u ∈ calls)
    (hut : u ≠ t) : ∃ calls', (s.returned t caller).pc p = .running calls' ∧ u ∈ calls' := by
  cases caller with
  | none => exact ⟨calls, hp, hu⟩
  | some q =>
    by_cases hpq : p = q
    · subst hpq
      exact ⟨calls.erase t, by simp [State.returned, hp], (List.mem_erase_of_ne hut).mpr hu⟩
    · refine ⟨calls, ?_, hu⟩
      simp only [State.returned]
      split
      · rw [goto_pc, if_neg hpq, hp]
      · exact hp

@[simp] theorem returned_joiner : (s.returned t caller).joiner = s.joiner := by
  cases caller with
  | none => rfl
  | some p =>
    simp only [State.returned]
    split <;> rfl

@[simp] theorem returned_wentOn : (s.returned t caller).wentOn = s.wentOn := by
  cases caller with
  | none => rfl
  | some p =>
    simp only [State.returned]
    split <;> rfl

@[simp] theorem returned_continuation : (s.returned t caller).continuation = s.continuation := by
  cases caller with
  | none => rfl
  | some p =>
    simp only [State.returned]
    split <;> rfl

/-- The increment of on_work_started. -/
theorem Inv.add (h : Inv s) (ht : s.pc t = .add caller) :
    Inv ({ s.returned t caller with count := s.count + 1 }.goto t (.running [])) := by
  have hstart : (s.pc t).Starting caller := .inr ht
  have hcount := h.count_starting hstart
  have hcaller : ∀ p, caller = some p → ∃ calls, s.pc p = .running calls := by
    rintro p rfl
    obtain ⟨calls, hp, -⟩ := h.caller t p hstart
    exact ⟨calls, hp⟩
  obtain ⟨hrun, hsame⟩ := returned_pc (t := t) hcaller
  have hpc : ∀ u, ({ s.returned t caller with count := s.count + 1 }.goto t (.running [])).pc u =
      if u = t then .running [] else (s.returned t caller).pc u := fun _ => goto_pc
  have hstarting : ∀ u b, (if u = t then .running [] else (s.returned t caller).pc u).Starting b →
      u ≠ t ∧ (s.pc u).Starting b := by
    intro u b hu
    split_ifs at hu with hut
    · exact absurd trivial hu.not_running
    · rw [hsame u fun hr => hu.not_running ((hrun u).mpr hr)] at hu
      exact ⟨hut, hu⟩
  have hres : ∀ u, (if u = t then .running [] else (s.returned t caller).pc u) ≠ .resuming := by
    intro u hu
    split_ifs at hu with hut
    have hnot : ¬ (s.pc u).Running := fun hr => by
      have hr' := (hrun u).mpr hr
      rw [hu] at hr'
      exact hr'
    rw [hsame u hnot] at hu
    have h0 := (h.resuming u hu).2
    omega
  refine ⟨?_, fun u hu => ?_, fun ho => ?_, fun u q hu => ?_, fun u hu => ?_, fun u v hu => ?_,
    by simpa [State.goto] using h.stored, fun _ h0 => ?_, fun hg => ?_,
    by simpa [State.goto] using h.once, fun u => ?_⟩
  · refine h.count.started (t := t) hstart.not_running (fun u => ?_) (by simp [State.goto]) rfl
    rw [hpc]
    split_ifs with hut
    · simp [hut, Pc.Running]
    · simp [hut, hrun]
  · obtain ⟨hut, hu⟩ := hstarting u none (hpc u ▸ hu)
    exact mem_returned_outside (h.outside u hu) hut
  · have hj := h.before (outside_of_returned ho)
    simpa [State.goto] using hj
  · obtain ⟨hut, hu⟩ := hstarting u (some q) (hpc u ▸ hu)
    obtain ⟨calls, hq, hmem⟩ := h.caller u q hu
    have hqt : q ≠ t := by
      rintro rfl
      cases hq.symm.trans ht
    rw [hpc, if_neg hqt]
    exact returned_running hq hmem hut
  · exact absurd (hpc u ▸ hu) (hres u)
  · exact absurd (hpc u ▸ hu) (hres u)
  · change s.count + 1 = 0 at h0
    omega
  · have hg' : s.joiner = .goneOn := by simpa [State.goto] using hg
    have h0 := h.goneOn hg'
    omega
  · rw [hpc]
    split_ifs
    · simp
    · intro hf
      have hnot : ¬ (s.pc u).Running := fun hr => by
        have hr' := (hrun u).mpr hr
        rw [hf] at hr'
        exact hr'
      exact h.fine u (hsame u hnot ▸ hf)

/-- A task in which no call of `spawn` is in progress moves on. -/
theorem Inv.callers_of_move (h : Inv s) (s' : State) (hpc : s'.pc = Function.update s.pc t pc)
    (hout : s'.outside = s.outside) (hnew : ∀ b, ¬ pc.Starting b)
    (hcalls : ∀ calls, s.pc t = .running calls → calls = []) :
    (∀ u, (s'.pc u).Starting none → u ∈ s'.outside) ∧
      ∀ u q, (s'.pc u).Starting (some q) → ∃ calls, s'.pc q = .running calls ∧ u ∈ calls := by
  have hstarting : ∀ u b, (s'.pc u).Starting b → (s.pc u).Starting b := by
    intro u b hu
    rw [hpc, Function.update_apply] at hu
    split_ifs at hu
    · exact absurd hu (hnew b)
    · exact hu
  constructor
  · intro u hu
    rw [hout]
    exact h.outside u (hstarting u none hu)
  · intro u q hu
    obtain ⟨calls, hq, hmem⟩ := h.caller u q (hstarting u (some q) hu)
    have hqt : q ≠ t := by
      rintro rfl
      rw [hcalls calls hq] at hmem
      exact absurd hmem List.not_mem_nil
    exact ⟨calls, by rw [hpc, Function.update_of_ne hqt, hq], hmem⟩

/-- The decrement of on_work_finished; no call of `spawn` is in progress inside the task. -/
theorem Inv.finish (h : Inv s) (ht : s.pc t = .running []) :
    Inv ({ s with count := s.count - 1 }.goto t (if s.count = 1 then .resuming else .finished)) := by
  have hrunning : (s.pc t).Running := by
    rw [ht]
    trivial
  have hcount := h.count_running hrunning
  have hunit := s.joiner.unit_nonneg
  have hnone : ∀ u, s.pc u ≠ .resuming := by
    intro u hu
    have h0 := (h.resuming u hu).2
    omega
  have hgone : s.joiner ≠ .goneOn := by
    intro hj
    have h0 := h.goneOn hj
    omega
  have hlast : ∀ u, ({ s with count := s.count - 1 }.goto t
      (if s.count = 1 then .resuming else .finished)).pc u = .resuming → u = t ∧ s.count = 1 := by
    intro u hu
    rw [goto_pc] at hu
    split_ifs at hu with hut h1
    · exact ⟨hut, h1⟩
    · exact absurd hu (hnone u)
  have hcallers := h.callers_of_move ({ s with count := s.count - 1 }.goto t
    (if s.count = 1 then .resuming else .finished)) rfl rfl (by split_ifs <;> simp [Pc.Starting])
    (by simp [ht])
  refine ⟨?_, hcallers.1, h.before, hcallers.2, fun u hu => ?_, fun u v hu hv => ?_,
    h.stored, fun _ h0 => ⟨t, ?_⟩, fun hg => absurd hg hgone, h.once,
    failed_goto h.fine (by split_ifs <;> simp)⟩
  · refine h.count.finished hrunning (fun u => ?_) rfl rfl
    rw [goto_pc]
    split_ifs with hut
    · simp [hut, Pc.Running]
    · simp [hut, Pc.Running]
    · simp [hut]
  · obtain ⟨-, h1⟩ := hlast u hu
    have hunit0 : s.joiner.unit = 0 := by omega
    refine ⟨?_, by change s.count - 1 = 0; omega⟩
    change s.joiner = .suspended
    cases hj : s.joiner <;> simp_all [Joiner.unit]
  · exact (hlast u hu).1.trans (hlast v hv).1.symm
  · have h1 : s.count = 1 := by
      change s.count - 1 = 0 at h0
      omega
    rw [goto_pc, if_pos rfl, if_pos h1]

/-- The last task resumes the joiner. -/
theorem Inv.resume (h : Inv s) (ht : s.pc t = .resuming) : Inv (s.goOn.goto t .finished) := by
  obtain ⟨hj, h0⟩ := h.resuming t ht
  have hother : ∀ u, (s.goOn.goto t .finished).pc u ≠ .resuming := by
    intro u hu
    rw [goto_pc] at hu
    split_ifs at hu with hut
    exact hut (h.sole u t hu ht)
  have hcallers := h.callers_of_move (s.goOn.goto t .finished) rfl rfl
    (by simp [Pc.Starting]) (by simp [ht])
  refine ⟨?_, hcallers.1, fun ho => ?_, hcallers.2, fun u hu => absurd hu (hother u),
    fun u v hu => absurd hu (hother u), by simp [State.goto, State.goOn], fun hs => ?_, fun _ => h0,
    ?_, failed_goto h.fine (by simp)⟩
  · have hrun : (s.pc t).Running ↔ Pc.finished.Running := by simp [ht, Pc.Running]
    exact h.count.congr (running_goto (s := s.goOn) hrun)
      (by simp [State.goto, State.goOn, hj, Joiner.unit])
  · have hb := h.before ho
    simp [hj] at hb
  · simp [State.goto, State.goOn] at hs
  · have honce := h.once
    simp [hj] at honce
    simp [State.goto, State.goOn, honce]

/-- A step of the joiner. -/
theorem Inv.joiner {j : Joiner} {continuation : Bool} {count : ℤ} {wentOn : ℕ} (h : Inv s)
    (hs : s.joiner ≠ .suspended) (ho : s.outside = []) (hc : count - j.unit = s.count - s.joiner.unit)
    (hk : j = .sub ∨ j = .suspended → continuation = true) (hsus : j = .suspended → count ≠ 0)
    (hg : j = .goneOn → count = 0) (hw : wentOn = if j = .goneOn then 1 else 0) :
    Inv { s with joiner := j, continuation := continuation, count := count, wentOn := wentOn } :=
  { h with
    count := h.count.congr (fun _ => Iff.rfl) hc
    before := fun hne => absurd ho hne
    resuming := fun u hu => absurd (h.resuming u hu).1 hs
    stored := hk
    suspended := fun hj h0 => absurd h0 (hsus hj)
    goneOn := hg
    once := hw }

theorem Inv.outside_nil (h : Inv s) (hj : s.joiner ≠ .before) : s.outside = [] := by
  by_contra hne
  exact hj (h.before hne)

theorem Inv.joinStep (h : Inv s) (hs : joinStep s = some s') : Inv s' := by
  have hunit := h.unit_le
  have honce := h.once
  unfold Scope.joinStep at hs
  split at hs
  · next hj =>
    split_ifs at hs with ho
    cases hs
    exact h.joiner (by simp [hj]) ho (by simp [hj, Joiner.unit]) (by simp) (by simp) (by simp)
      (by simpa [hj] using honce)
  · next hj =>
    have ho := h.outside_nil (by simp [hj])
    have h1 : s.count ≠ 0 := by
      simp [hj, Joiner.unit] at hunit
      omega
    rw [if_neg h1] at hs
    cases hs
    exact h.joiner (by simp [hj]) ho (by simp [hj, Joiner.unit]) (by simp) (by simp) (by simp)
      (by simpa [hj] using honce)
  · next hj =>
    have ho := h.outside_nil (by simp [hj])
    cases hs
    exact h.joiner (by simp [hj]) ho (by simp [hj, Joiner.unit]) (by simp) (by simp) (by simp)
      (by simpa [hj] using honce)
  · next hj =>
    have ho := h.outside_nil (by simp [hj])
    have hk := h.stored (.inl hj)
    simp only [hj, Joiner.unit] at hunit
    split_ifs at hs with h1
    · cases hs
      exact h.joiner (by simp [hj]) ho (by simp [hj, Joiner.unit]) (fun _ => hk)
        (fun _ => by omega) (by simp) (by simpa [hj] using honce)
    · cases hs
      have hw : s.wentOn = 0 := by simpa [hj] using honce
      have h0 : s.count - 1 = 0 := by omega
      exact h.joiner (by simp [hj]) ho (by simp [hj, Joiner.unit]) (fun _ => hk) (by simp)
        (fun _ => h0) (by simp [hw])
  · cases hs
  · cases hs

theorem Inv.taskStep (h : Inv s) (hs : taskStep s t = some s') : Inv s' := by
  unfold Scope.taskStep at hs
  split at hs
  · next caller ht =>
    have hcount := h.count_starting (t := t) (.inl ht)
    have hne : s.count ≠ 0 := by omega
    rw [if_pos hne] at hs
    cases hs
    exact h.check ht
  · next caller ht =>
    cases hs
    exact h.add ht
  · next ht =>
    cases hs
    exact h.finish ht
  · next ht =>
    obtain ⟨hj, -⟩ := h.resuming t ht
    rw [if_pos (h.stored (.inr hj))] at hs
    cases hs
    exact h.resume ht
  · cases hs

theorem inv_inductive : system.Inductive (fun _ _ => True) Inv where
  init := by
    rintro _ rfl
    exact inv_start
  step s a s' h _ ha := by
    cases a with
    | spawn caller t =>
      cases caller with
      | none =>
        change (if _ then _ else _) = _ at ha
        split_ifs at ha with hs
        cases ha
        exact h.spawnOutside hs.1 hs.2
      | some p =>
        simp only [system, next] at ha
        split at ha
        · next calls hp =>
          split_ifs at ha with ht
          cases ha
          exact h.spawnInside hp ht
        · cases ha
    | task t => exact h.taskStep ha
    | join => exact h.joinStep ha

/-- What holds of every state: the joiner goes on at most once, after every spawned task has
finished, and has gone on once when they all have and its own steps are taken; no assertion
fails, no unset continuation is resumed and `_count` is not negative. -/
structure Joined (s : State) : Prop where
  atMost : s.wentOn ≤ 1
  waits : 0 < s.wentOn → ∀ t, s.pc t = .unspawned ∨ s.pc t = .finished
  exactly : s.joiner = .suspended ∨ s.joiner = .goneOn →
    (∀ t, s.pc t = .unspawned ∨ s.pc t = .finished) → s.wentOn = 1
  resumes : ∀ t, s.pc t = .resuming → s.continuation = true
  nonneg : 0 ≤ s.count
  fine : ∀ t, s.pc t ≠ .failed

theorem Inv.joined (h : Inv s) : Joined s where
  atMost := by
    rw [h.once]
    split_ifs <;> omega
  waits hw t := by
    have hg : s.joiner = .goneOn := by
      by_contra hne
      simp [h.once, hne] at hw
    refine h.settled (h.goneOn hg) fun ht => ?_
    have hj := (h.resuming t ht).1
    simp [hg] at hj
  exactly hj hall := by
    rcases hj with hj | hj
    · obtain ⟨active, hactive, hcount⟩ := h.count
      have hempty : active = ∅ := by
        refine Finset.eq_empty_of_forall_notMem fun t ht => ?_
        have hr := (hactive t).mp ht
        rcases hall t with hp | hp <;> simp [hp, Pc.Running] at hr
      obtain ⟨t, ht⟩ := h.suspended hj (by simp [hcount, hj, hempty, Joiner.unit])
      rcases hall t with hp | hp <;> simp [hp] at ht
    · simp [h.once, hj]
  resumes t ht := h.stored (.inr (h.resuming t ht).1)
  nonneg := h.count_nonneg
  fine := h.fine

theorem join_correct (hs : system.Reachable s) : Joined s :=
  (inv_inductive.holds hs).joined

/-- A task that runs spawns another; that one finishes last, after the join. -/
theorem join_correct_nested : ∃ s, system.Reachable s ∧ s.joiner = .goneOn ∧ s.wentOn = 1 ∧
    s.pc 1 = .finished ∧ Joined s := by
  obtain ⟨s, hs, hp⟩ := system.exists_reachable_of_run
    [.spawn none 0, .task 0, .task 0, .spawn (some 0) 1, .task 1, .task 1, .join, .join, .task 0,
      .join, .join, .task 1, .task 1]
    (fun s => s.joiner = .goneOn && s.wentOn = 1 && s.pc 1 = .finished) rfl (by decide)
  simp only [Bool.and_eq_true, decide_eq_true_eq] at hp
  exact ⟨s, hs, hp.1.1, hp.1.2, hp.2, join_correct hs⟩

end Suil.Async.Scope
