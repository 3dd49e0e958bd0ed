import Suil.Async.Completion
import Suil.Async.TimerList

/-! The timer list of one thread. `cancelTimer` goes by the target of the Timer and
not by whether its item is linked; the invariant says when the two agree, and
which steps break it. -/
namespace Suil.Async.Thread
open Transition DoublyLinked Links

variable {s s' : Sys} {a b : Agent} {v w : Waiter} {p : Party} {t fuel : ℕ} {act : Act}
  {l l' : List Waiter}

theorem addTimer_represents {timers : Links Waiter} (h : s.timers.Represents l) (hw : w ∉ l)
    (hadd : addTimer s w fuel = some timers) :
    ∃ l', timers.Represents l' ∧ ∀ v, v ∈ l' ↔ v = w ∨ v ∈ l := by
  obtain ⟨it, hscan, rfl⟩ := Option.map_eq_some_iff.mp hadd
  rw [h.first] at hscan
  have h' : s.timers.Represents ([] ++ l) := h
  obtain ⟨k₁, k₂, rfl, rfl, -, -⟩ := scanTimers_stop h' hscan
  refine ⟨_, millListInsert_represents h hw, fun v => ?_⟩
  simp only [List.mem_append, List.mem_cons]
  exact or_left_comm

theorem erase_represents (h : s.timers.Represents l) (hw : w ∈ l) :
    ∃ l', (millListErase s.timers w).1.Represents l' ∧ ∀ v, v ∈ l' ↔ v ∈ l ∧ v ≠ w := by
  obtain ⟨l₁, l₂, rfl⟩ := List.append_of_mem hw
  have hn := List.nodup_cons.mp (List.nodup_middle.mp h.nodup)
  refine ⟨_, millListErase_represents h, fun v => ?_⟩
  simp only [List.mem_append, List.mem_cons] at hn ⊢
  constructor
  · intro hv
    exact ⟨hv.imp_right .inr, fun he => hn.1 (he ▸ hv)⟩
  · rintro ⟨hv | rfl | hv, hne⟩
    exacts [.inl hv, absurd rfl hne, .inr hv]

/-- The item is neither linked nor in the hands of `fireExpiredTimers`. -/
def Out (s : Sys) (l : List Waiter) (w : Waiter) : Prop := w ∉ l ∧ s.pc .loop ≠ .popped w

/-- The item is linked if the Timer has a target. -/
def Attached (s : Sys) (l : List Waiter) (w : Waiter) : Prop :=
  ((s.cells w).target = none → Out s l w) ∧ ((s.cells w).target ≠ none → w ∈ l)

/-- The item is linked or about to be fired if the Timer has a target, and an Event
with a deadline has one. -/
def Carried (s : Sys) (l : List Waiter) (w : Waiter) : Prop :=
  ((s.cells w).target = none → Out s l w) ∧
  ((s.cells w).target ≠ none → w ∈ l ∨ s.pc .loop = .popped w) ∧
  ∀ e, w = .event e → 0 < (s.cells w).dd → (s.cells w).target ≠ none

/-- The Timer of the object that `add` deals with. -/
def Placed (s : Sys) (l : List Waiter) : Waiter → AddStage → Prop
  | .event e, .ctl _ => Out s l (.event e)
  | .event e, .target => Out s l (.event e) ∧ 0 < (s.cells (.event e)).dd
  | .event e, .link => Out s l (.event e) ∧ 0 < (s.cells (.event e)).dd ∧
      (s.cells (.event e)).target ≠ none
  | .event e, .store => Carried s l (.event e)
  | .delay _, .ctl _ => False
  | .delay d, .store => Out s l (.delay d)
  | .delay d, .target => Out s l (.delay d) ∧ s.co (.delay d) = .suspended ∧
      (s.cells (.delay d)).state = .scheduled
  | .delay d, .link => Out s l (.delay d) ∧ s.co (.delay d) = .suspended ∧
      (s.cells (.delay d)).state = .scheduled ∧ (s.cells (.delay d)).target ≠ none

/-- The Timer of the object whose wait has been won. -/
def Ended (s : Sys) (l : List Waiter) (w : Waiter) : FinishStage → Prop
  | .check | .cancel => Attached s l w
  | .reset | .del | .resume => Out s l w

/-- What the counter of an agent says about the Timer of the object. -/
def Pc.Keeps (s : Sys) (l : List Waiter) (w : Waiter) : Pc → Prop
  | .adding w' st => w' = w → Placed s l w st
  | .fired e _ => .event e = w → Attached s l w
  | .finishing w' _ st => w' = w → Ended s l w st
  | _ => True

/-- The Timer of one object, `l` being the items of `_timers`. -/
structure Timing (s : Sys) (l : List Waiter) (w : Waiter) : Prop where
  pending : s.pending w = true ↔ w ∈ l
  away : s.co w = .outside ∨ s.co w = .resumed ∨
    s.co w = .suspended ∧ (s.cells w).state = .created → Out s l w
  sole : ∀ a b st st', s.pc a = .adding w st → s.pc b = .adding w st' → a = b
  agents : ∀ a, (s.pc a).Keeps s l w
  scheduled : (s.cells w).state = .scheduled → (∀ a st, s.pc a ≠ .adding w st) → Carried s l w
  popped : s.pc .loop = .popped w → w ∉ l ∧ (s.cells w).target ≠ none ∧
    ((s.cells w).state = .scheduled ∨ ∃ a, s.pc a = .adding w .store)

theorem SameAt.popped (h : SameAt s s' v) : s'.pc .loop = .popped v ↔ s.pc .loop = .popped v :=
  h.pc _ _ rfl

theorem SameAt.adding {st : AddStage} (h : SameAt s s' v) :
    s'.pc a = .adding v st ↔ s.pc a = .adding v st := h.pc _ _ rfl

theorem Out.same (h : SameAt s s' v) (hl : v ∈ l' ↔ v ∈ l) : Out s' l' v ↔ Out s l v := by
  simp only [Out, hl, ne_eq, h.popped]

theorem Attached.same (h : SameAt s s' v) (hl : v ∈ l' ↔ v ∈ l) :
    Attached s' l' v ↔ Attached s l v := by
  simp only [Attached, Out.same h hl, hl, h.cells]

theorem Carried.same (h : SameAt s s' v) (hl : v ∈ l' ↔ v ∈ l) :
    Carried s' l' v ↔ Carried s l v := by
  simp only [Carried, Out.same h hl, hl, h.cells, h.popped]

theorem Placed.same {st : AddStage} (h : SameAt s s' v) (hl : v ∈ l' ↔ v ∈ l) :
    Placed s' l' v st ↔ Placed s l v st := by
  cases v <;> cases st <;> simp only [Placed, Out.same h hl, Carried.same h hl, h.cells, h.co]

theorem Ended.same {st : FinishStage} (h : SameAt s s' v) (hl : v ∈ l' ↔ v ∈ l) :
    Ended s' l' v st ↔ Ended s l v st := by
  cases st <;> simp only [Ended, Out.same h hl, Attached.same h hl]

theorem Pc.Keeps.same {pc : Pc} (h : SameAt s s' v) (hl : v ∈ l' ↔ v ∈ l) :
    pc.Keeps s' l' v ↔ pc.Keeps s l v := by
  cases pc <;> simp only [Pc.Keeps, Placed.same h hl, Attached.same h hl, Ended.same h hl]

theorem Timing.same (ht : Timing s l v) (h : SameAt s s' v) (hl : v ∈ l' ↔ v ∈ l) :
    Timing s' l' v where
  pending := by rw [h.pending, hl, ht.pending]
  away := by
    rw [h.co, h.cells, Out.same h hl]
    exact ht.away
  sole a b st st' h1 h2 := ht.sole a b st st' (h.adding.mp h1) (h.adding.mp h2)
  agents a := by
    by_cases ha : (s'.pc a).About v
    · rw [Pc.Keeps.same h hl, ← (h.pc a _ ha).mp rfl]
      exact ht.agents a
    · generalize s'.pc a = pc at ha
      cases pc <;> first | trivial | exact fun he => absurd he ha
  scheduled := by
    rw [h.cells, Carried.same h hl]
    exact fun hs hn => ht.scheduled hs fun t st h1 => hn t st (h.adding.mpr h1)
  popped := by
    rw [h.popped, h.cells, hl]
    intro hp
    obtain ⟨h1, h2, h3⟩ := ht.popped hp
    exact ⟨h1, h2, h3.imp_right fun ⟨t, h4⟩ => ⟨t, h.adding.mpr h4⟩⟩

theorem Timing.adding {st : AddStage} (ht : Timing s l w) (hpc : s.pc a = .adding w st) :
    Placed s l w st := by
  have hk := ht.agents a
  rw [hpc] at hk
  exact hk rfl

theorem Timing.finishing {st : FinishStage} (ht : Timing s l w) (hpc : s.pc a = .finishing w p st) :
    Ended s l w st := by
  have hk := ht.agents a
  rw [hpc] at hk
  exact hk rfl

/-- A Delay is already scheduled while its timer is linked. -/
theorem Timing.adding_co {st : AddStage} (hl : Local s w) (ht : Timing s l w)
    (hpc : s.pc a = .adding w st) :
    (∃ t, s.co w = .suspending t) ∨ s.co w = .suspended ∧ (s.cells w).state = .scheduled := by
  by_cases hb : st.BeforeStore w
  · have ho := hl.owner a (by rw [hpc]; exact ⟨rfl, hb⟩)
    rw [hpc] at ho
    obtain ⟨t, rfl, hco⟩ := ho
    exact .inl ⟨t, hco⟩
  · have hp := ht.adding hpc
    cases w <;> cases st <;> simp_all [AddStage.BeforeStore, Placed]

/-- Nobody is in `add` on an object that is not awaited or whose wait is won. -/
theorem Timing.no_adder (hl : Local s w) (ht : Timing s l w) (hco : ∀ t, s.co w ≠ .suspending t)
    (hst : s.co w = .suspended → (s.cells w).state ≠ .scheduled) (a : Agent) (st : AddStage) :
    s.pc a ≠ .adding w st := by
  intro hpc
  rcases ht.adding_co hl hpc with ⟨t, h⟩ | ⟨h, hs⟩
  exacts [hco t h, hst h hs]

/-- A step of an agent that shares the object at most with `fireExpiredTimers`. -/
theorem Timing.here (h : StepAt s s' a w) (hown : ∀ b, b ≠ a → ¬ (s.pc b).Owns w)
    (hadd : ∀ b st, b ≠ a → s.pc b ≠ .adding w st)
    (pending : s'.pending w = true ↔ w ∈ l')
    (away : s'.co w = .outside ∨ s'.co w = .resumed ∨
      s'.co w = .suspended ∧ (s'.cells w).state = .created → Out s' l' w)
    (keeps : (s'.pc a).Keeps s' l' w)
    (scheduled : (s'.cells w).state = .scheduled → (∀ st, s'.pc a ≠ .adding w st) →
      Carried s' l' w)
    (popped : s'.pc .loop = .popped w → w ∉ l' ∧ (s'.cells w).target ≠ none ∧
      ((s'.cells w).state = .scheduled ∨ ∃ b, s'.pc b = .adding w .store)) :
    Timing s' l' w where
  pending := pending
  away := away
  sole b c st st' h1 h2 := by
    have hne : ∀ b st, s'.pc b = .adding w st → b = a := by
      intro b st hpc
      by_contra hba
      exact hadd b st hba (h.others b hba ▸ hpc)
    exact (hne b st h1).trans (hne c st' h2).symm
  agents b := by
    by_cases hb : b = a
    · exact hb ▸ keeps
    · have hno := hown b hb
      have hna := fun st => hadd b st hb
      rw [h.others b hb]
      generalize s.pc b = pc at hno hna
      cases pc with
      | adding w' st => exact fun he => absurd (by rw [he]) (hna st)
      | fired e flags => exact fun he => absurd he hno
      | finishing w' p st => exact fun he => absurd he hno
      | idle | removing w' | popped w' => trivial
  scheduled hs hn := scheduled hs fun st => hn a st
  popped := popped

/-- What a step must not do: win the compare-exchange of `fireExpiredTimers` too late or that
of `remove` too early, pop the timer of an object that is being removed, or add an
Event without a deadline whose last wait has timed out. -/
def TimersKept (s : Sys) : Act → Prop
  | .expire spurious => ∀ w, s.pc .loop = .popped w → spurious = false ∧ (s.cells w).state = .scheduled
  | .removeCas t spurious => ∀ w, s.pc (.thread t) = .removing w → spurious = false →
      (s.cells w).state = .scheduled → s.pc .loop ≠ .popped w ∧ ∀ a st, s.pc a ≠ .adding w st
  | .popExpired => ∀ w, s.timers.first = some w → (s.cells w).state ≠ .abandoned
  | .add t _ .ok => ∀ e op, s.pc (.thread t) = .adding (.event e) (.ctl op) →
      (s.cells (.event e)).dd ≤ 0 → (s.cells (.event e)).target = none
  | _ => True

/-- The object is left to nobody, with its item out of the way. -/
theorem Timing.quiet (h : StepAt s s' a w) (hown : ∀ b, b ≠ a → ¬ (s.pc b).Owns w)
    (hadd : ∀ b st, b ≠ a → s.pc b ≠ .adding w st) (hpc : ¬ (s'.pc a).About w)
    (pending : s'.pending w = true ↔ w ∈ l') (hout : Out s' l' w)
    (state : (s'.cells w).state ≠ .scheduled) : Timing s' l' w := by
  refine .here h hown hadd pending (fun _ => hout) ?_ (fun hs => absurd hs state)
    fun hp => absurd hp hout.2
  generalize s'.pc a = pc at hpc
  cases pc <;> first | trivial | exact fun he => absurd he hpc

/-- `add` goes on. -/
theorem Timing.adds {st : AddStage} (h : StepAt s s' a w) (hown : ∀ b, b ≠ a → ¬ (s.pc b).Owns w)
    (hadd : ∀ b st, b ≠ a → s.pc b ≠ .adding w st) (hpc : s'.pc a = .adding w st)
    (pending : s'.pending w = true ↔ w ∈ l')
    (hco : (∃ t, s'.co w = .suspending t) ∨ s'.co w = .suspended ∧ (s'.cells w).state = .scheduled)
    (hplaced : Placed s' l' w st) (popped : s'.pc .loop = .popped w → st = .store ∧ w ∉ l' ∧
      (s'.cells w).target ≠ none) : Timing s' l' w := by
  refine .here h hown hadd pending (fun hc => ?_) ?_ (fun _ hn => absurd hpc (hn st)) fun hp => ?_
  · rcases hco with ⟨t, hco⟩ | ⟨hco, hs⟩
    · simp [hco] at hc
    · simp [hco, hs] at hc
  · rw [hpc]
    exact fun _ => hplaced
  · obtain ⟨rfl, hn, ht⟩ := popped hp
    exact ⟨hn, ht, .inr ⟨a, hpc⟩⟩

/-- `add` has returned. -/
theorem Timing.added (h : StepAt s s' a w) (hown : ∀ b, b ≠ a → ¬ (s.pc b).Owns w)
    (hadd : ∀ b st, b ≠ a → s.pc b ≠ .adding w st) (hpc : s'.pc a = .idle)
    (pending : s'.pending w = true ↔ w ∈ l') (co : s'.co w = .suspended)
    (state : (s'.cells w).state = .scheduled) (hc : Carried s' l' w)
    (popped : s'.pc .loop = .popped w → w ∉ l' ∧ (s'.cells w).target ≠ none) : Timing s' l' w := by
  refine .here h hown hadd pending (by simp [co, state]) ?_ (fun _ _ => hc) fun hp => ?_
  · rw [hpc]
    trivial
  · exact ⟨(popped hp).1, (popped hp).2, .inl state⟩

/-- The winner of a wait goes on. -/
theorem Timing.won (h : StepAt s s' a w) (hown : ∀ b, b ≠ a → ¬ (s.pc b).Owns w)
    (hadd : ∀ b st, b ≠ a → s.pc b ≠ .adding w st) (keeps : (s'.pc a).Keeps s' l' w)
    (pending : s'.pending w = true ↔ w ∈ l') (co : s'.co w = .suspended)
    (state : (s'.cells w).state ≠ .scheduled ∧ (s'.cells w).state ≠ .created)
    (popped : s'.pc .loop ≠ .popped w) : Timing s' l' w :=
  .here h hown hadd pending (by simp [co, state]) keeps (fun hs => absurd hs state.1)
    fun hp => absurd hp popped

theorem Timing.alone {st : AddStage} (ht : Timing s l w) (hpc : s.pc a = .adding w st) (b : Agent)
    (st' : AddStage) (hb : b ≠ a) : s.pc b ≠ .adding w st' :=
  fun h => hb (ht.sole b a _ _ h hpc)

theorem Timing.adding_unowned {st : AddStage} (hl : Local s w) (ht : Timing s l w)
    (hpc : s.pc (.thread t) = .adding w st) (b : Agent) (hb : b ≠ .thread t) : ¬ (s.pc b).Owns w := by
  by_cases hbs : st.BeforeStore w
  · exact (hl.adding hpc hbs).2.1 b hb
  · rcases ht.adding_co hl hpc with ⟨t', hco⟩ | hco
    · obtain ⟨st', hst', hbs'⟩ := hl.suspending t' hco
      obtain rfl : t = t' := by simpa using ht.sole _ _ _ _ hpc hst'
      exact (hl.adding hst' hbs').2.1 b hb
    · exact hl.unowned (.inr (.inr hco)) b

theorem Carried.attached (h : Carried s l w) (hp : s.pc .loop ≠ .popped w) : Attached s l w :=
  ⟨h.1, fun ht => (h.2.1 ht).resolve_right hp⟩

theorem Attached.not_popped (h : Attached s l w) (ht : Timing s l w) : s.pc .loop ≠ .popped w := by
  intro hp
  obtain ⟨hn, htarget, -⟩ := ht.popped hp
  exact hn (h.2 htarget)

theorem StepAt.not_popped (h : StepAt s s' a w) (hp : s.pc .loop ≠ .popped w)
    (ha : s'.pc a ≠ .popped w) : s'.pc .loop ≠ .popped w := by
  by_cases hla : Agent.loop = a
  · exact hla ▸ ha
  · exact h.others _ hla ▸ hp

/-- After the store of `scheduled` the timer of a Delay is on its way into the list. -/
theorem Timing.late_out {st : AddStage} (ht : Timing s l w) (hpc : s.pc a = .adding w st)
    (hb : ¬ st.BeforeStore w) : Out s l w := by
  have hp := ht.adding hpc
  cases w <;> cases st <;> simp_all [AddStage.BeforeStore, Placed]

/-- A linked timer belongs to a wait that nobody has won, given that nobody is about to cancel it. -/
theorem Timing.linked (hl : Local s w) (ht : Timing s l w) (hin : w ∈ l) (hpc : s.pc .loop = .idle)
    (hst : (s.cells w).state ≠ .abandoned) : (s.cells w).target ≠ none ∧
      ((∃ a, s.pc a = .adding w .store ∧ (∃ t, s.co w = .suspending t) ∧ Carried s l w) ∨
        s.co w = .suspended ∧ (s.cells w).state = .scheduled ∧ ∀ a st, s.pc a ≠ .adding w st) := by
  have hout : ¬ Out s l w := fun h => h.1 hin
  have hcar : Carried s l w → (s.cells w).target ≠ none := fun h htn => hout (h.1 htn)
  have hph := hl.phase
  unfold Phase at hph
  split at hph
  · next hco => exact absurd (ht.away (.inl hco)) hout
  · next t hco =>
    obtain ⟨st, hst, -⟩ := hl.suspending t hco
    have hp := ht.adding hst
    cases w <;> cases st <;> simp only [Placed] at hp
    case event.store => exact ⟨hcar hp, .inl ⟨_, hst, ⟨t, hco⟩, hp⟩⟩
    all_goals first | exact absurd hp hout | exact absurd hp.1 hout
  · next hco =>
    obtain ⟨rest, -, ⟨-, hs | hs⟩ | ⟨p, -, -, hc⟩⟩ := hph
    · exact absurd (ht.away (.inr (.inr ⟨hco, hs⟩))) hout
    · have hno : ∀ a st, s.pc a ≠ .adding w st := by
        intro a st ha
        by_cases hb : st.BeforeStore w
        · exact hl.unowned (.inr (.inr ⟨hco, hs⟩)) a (by rw [ha]; exact ⟨rfl, hb⟩)
        · exact hout (ht.late_out ha hb)
      exact ⟨hcar (ht.scheduled hs hno), .inr ⟨hco, hs, hno⟩⟩
    · rcases hc with ⟨st, hc⟩ | ⟨e, flags, -, -, hc⟩
      · have hs := (hl.finishing hc).2.2.2.1
        cases p with
        | remove t => exact absurd (hs.trans (by cases w <;> rfl)) hst
        | epoll flags => simp [Party.agent, hpc] at hc
        | timer => simp [Party.agent, hpc] at hc
      · simp [hpc] at hc
  · next hco => exact absurd (ht.away (.inr (.inl hco))) hout

/-- `fireExpiredTimers` takes a timer that nobody is about to cancel. -/
theorem Timing.pops (ht : Timing s l w) (hl : Local s w) (hin : w ∈ l) (hpc : s.pc .loop = .idle)
    (hst : (s.cells w).state ≠ .abandoned) (h : StepAt s s' .loop w) (hnin : w ∉ l')
    (hpc' : s'.pc .loop = .popped w) (cells : s'.cells w = s.cells w) (co : s'.co w = s.co w)
    (pending : s'.pending w = false) : Timing s' l' w := by
  obtain ⟨htarget, hcase⟩ := ht.linked hl hin hpc hst
  have hcar : Carried s' l' w := by
    refine ⟨fun h => absurd (cells ▸ h) htarget, fun _ => .inr hpc', fun _ _ _ => cells ▸ htarget⟩
  have hadds : ∀ b st, s'.pc b = .adding w st → b ≠ .loop ∧ s.pc b = .adding w st := by
    intro b st hb
    have hne : b ≠ .loop := by
      rintro rfl
      simp [hpc'] at hb
    exact ⟨hne, h.others b hne ▸ hb⟩
  refine ⟨by simp [pending, hnin], ?_, fun b c _ _ hb hc =>
    ht.sole b c _ _ (hadds b _ hb).2 (hadds c _ hc).2, fun b => ?_, fun _ _ => hcar,
    fun _ => ⟨hnin, cells ▸ htarget, ?_⟩⟩
  · rw [co, cells]
    rcases hcase with ⟨a, -, ⟨t, hco⟩, -⟩ | ⟨hco, hs, -⟩ <;> simp [*]
  · by_cases hb : b = .loop
    · rw [hb, hpc']
      trivial
    · rw [h.others b hb]
      generalize hpb : s.pc b = pc
      cases pc with
      | adding w' st =>
        rintro rfl
        rcases hcase with ⟨a, ha, -, -⟩ | ⟨-, -, hno⟩
        · obtain rfl := ht.sole b a _ _ hpb ha
          cases hpb.symm.trans ha
          cases w' with
          | event e => exact hcar
          | delay d => exact absurd hin (ht.adding ha).1
        · exact absurd hpb (hno b st)
      | fired e flags =>
        rintro rfl
        have ho := hl.owner b (by rw [hpb]; exact rfl)
        rw [hpb] at ho
        exact absurd ho.1 hb
      | finishing w' p st =>
        rintro rfl
        obtain ⟨-, hco, -, hs, -⟩ := hl.finishing hpb
        rcases hcase with ⟨-, -, ⟨t, hco'⟩, -⟩ | ⟨-, hs', -⟩
        · cases hco.symm.trans hco'
        · exact absurd (hs.symm.trans hs') cause_ne.1
      | idle | removing w' | popped w' => trivial
  · rw [cells]
    rcases hcase with ⟨a, ha, -, -⟩ | ⟨-, hs, -⟩
    · have hne : a ≠ .loop := by
        rintro rfl
        simp [hpc] at ha
      exact .inr ⟨a, (h.others a hne).trans ha⟩
    · exact .inl hs

theorem Pc.About.split {pc : Pc} (h : pc.About w) :
    pc.Owns w ∨ (∃ st, pc = .adding w st) ∨ pc = .popped w := by
  cases pc <;> simp_all [Pc.About, Pc.Owns]

theorem Ended.not_popped {st : FinishStage} (h : Ended s l w st) (ht : Timing s l w) :
    s.pc .loop ≠ .popped w := by
  cases st with
  | check | cancel => exact Attached.not_popped h ht
  | reset | del | resume => exact h.2

/-- What is known of the Timer of an object whose wait agent `a` completes. -/
theorem Timing.ends {st : FinishStage} (ht : Timing s l w) (hl : Local s w)
    (hpc : s.pc a = .finishing w p st) : s.co w = .suspended ∧ (∀ b, b ≠ a → ¬ (s.pc b).Owns w) ∧
      (∀ b st', b ≠ a → s.pc b ≠ .adding w st') ∧
      ((s.cells w).state ≠ .scheduled ∧ (s.cells w).state ≠ .created) ∧
      s.pc .loop ≠ .popped w ∧ Ended s l w st := by
  obtain ⟨-, hco, hown, hst, -⟩ := hl.finishing hpc
  have hends : Ended s l w st := ht.finishing hpc
  have hno := ht.no_adder hl (by simp [hco]) (by simp [hst, cause_ne])
  exact ⟨hco, hown, fun b st' _ => hno b st', by simp [hst, cause_ne], hends.not_popped ht, hends⟩

/-- The winner of a wait takes another step towards the `resume()` of its coroutine. -/
theorem Timing.goesOn {st st' : FinishStage} (ht : Timing s l w) (hl : Local s w)
    (h : StepAt s s' a w) (hpc : s.pc a = .finishing w p st) (hpc' : s'.pc a = .finishing w p st')
    (state : (s'.cells w).state = (s.cells w).state) (co : s'.co w = s.co w)
    (pending : s'.pending w = true ↔ w ∈ l')
    (ends : s'.pc .loop ≠ .popped w → Ended s' l' w st') : Timing s' l' w := by
  obtain ⟨hco, hown, hno, hst, hnp, -⟩ := ht.ends hl hpc
  have hnp' := h.not_popped hnp (by simp [hpc'])
  refine .won h hown hno ?_ pending (co.trans hco) (state ▸ hst) hnp'
  rw [hpc']
  exact fun _ => ends hnp'

/-- An agent wins a wait whose timer nobody has popped. -/
theorem Timing.wins (ht : Timing s l w) (hl : Local s w) (h : StepAt s s' a w)
    (hst : (s.cells w).state = .scheduled) (hno : ∀ b st, s.pc b ≠ .adding w st)
    (hnp : s.pc .loop ≠ .popped w) (keeps : Attached s l w → (s'.pc a).Keeps s' l w)
    (pending : s'.pending w = s.pending w) (co : s'.co w = s.co w)
    (state : (s'.cells w).state ≠ .scheduled ∧ (s'.cells w).state ≠ .created)
    (popped : s'.pc .loop ≠ .popped w) : Timing s' l w := by
  obtain ⟨hco, -⟩ := hl.scheduled hst
  have hown := hl.unowned (.inr (.inr ⟨hco, hst⟩))
  have hatt : Attached s l w := (ht.scheduled hst hno).attached hnp
  exact .won h (fun b _ => hown b) (fun b st _ => hno b st) (keeps hatt)
    (pending ▸ ht.pending) (co.trans hco) state popped

/-- What is known of the Timer of an object that is not awaited. -/
theorem Timing.unawaited (ht : Timing s l w) (hl : Local s w)
    (hco : s.co w = .outside ∨ s.co w = .resumed) :
    (∀ b, ¬ (s.pc b).Owns w) ∧ (∀ b st, s.pc b ≠ .adding w st) ∧ Out s l w ∧
      ¬ (s.pc .loop).About w := by
  have hown : ∀ b, ¬ (s.pc b).Owns w := hl.unowned (hco.imp_right .inl)
  have hno : ∀ b st, s.pc b ≠ .adding w st := by
    refine ht.no_adder hl ?_ ?_ <;> rcases hco with hco | hco <;> simp [hco]
  have hout : Out s l w := ht.away (hco.imp_right .inl)
  refine ⟨hown, hno, hout, fun habout => ?_⟩
  rcases habout.split with h | ⟨st, h⟩ | h
  · exact hown _ h
  · exact hno _ st h
  · exact hout.2 h

/-- A step leaves `_timers` a list, the other items in it, and its own object in order. -/
def TimedStep (s' : Sys) (l : List Waiter) (v : Waiter) : Prop :=
  ∃ l', s'.timers.Represents l' ∧ (∀ u, u ≠ v → (u ∈ l' ↔ u ∈ l)) ∧ Timing s' l' v

theorem TimedStep.kept (hr : s'.timers.Represents l) (ht : Timing s' l v) : TimedStep s' l v :=
  ⟨l, hr, fun _ _ => Iff.rfl, ht⟩

theorem Timing.step_link {timers : Links Waiter} {fuel : ℕ} (ht : Timing s l w) (hl : Local s w)
    (hr : s.timers.Represents l) (hpc : s.pc (.thread t) = .adding w .link)
    (hadd : addTimer s w fuel = some timers)
    (hs : s' = ({ s with timers := timers }.setPending w true).goto (.thread t) (linkedPc w))
    (hat : StepAt s s' (.thread t) w) : TimedStep s' l w := by
  have hco := ht.adding_co hl hpc
  have hp := ht.adding hpc
  have hout : Out s l w := by cases w <;> exact hp.1
  obtain ⟨l', hr', hmem⟩ := addTimer_represents hr hout.1 hadd
  have hin : w ∈ l' := (hmem w).mpr (.inl rfl)
  subst hs
  refine ⟨l', hr', fun u hu => by simp [hmem, hu], ?_⟩
  cases w with
  | event e =>
    refine .adds hat (ht.adding_unowned hl hpc) (ht.alone hpc) (Function.update_self ..)
      (by simp [hin]) hco ?_ ?_
    · exact ⟨fun h => absurd h hp.2.2, fun _ => .inl hin, fun _ _ _ => hp.2.2⟩
    · simpa using fun h => absurd h hout.2
  | delay d =>
    refine .added hat (ht.adding_unowned hl hpc) (ht.alone hpc) (Function.update_self ..)
      (by simp [hin]) hp.2.1 hp.2.2.1 ?_ ?_
    · exact ⟨fun h => absurd h hp.2.2.2, fun _ => .inl hin, fun _ h => by cases h⟩
    · simpa using fun h => absurd h hout.2

theorem Timing.step_store (ht : Timing s l w) (hl : Local s w) (hr : s.timers.Represents l)
    (hpc : s.pc (.thread t) = .adding w .store) (hat : StepAt s (addStore s t w) (.thread t) w) :
    TimedStep (addStore s t w) l w := by
  have hp := ht.adding hpc
  cases w with
  | event e =>
    refine .kept hr (.added hat (ht.adding_unowned hl hpc) (ht.alone hpc)
      (Function.update_self ..) ht.pending (by simp [addStore]) (by simp [addStore]) ?_ ?_)
    · simpa [Placed, Carried, Out, addStore] using hp
    · have hpop := ht.popped
      simpa [addStore] using fun h => ⟨(hpop h).1, (hpop h).2.1⟩
  | delay d =>
    refine .kept hr (.adds hat (ht.adding_unowned hl hpc) (ht.alone hpc)
      (Function.update_self ..) ht.pending (by simp [addStore]) ?_ ?_)
    · simpa [Placed, Out, addStore] using hp
    · simpa [addStore] using fun h => absurd h hp.2

theorem Timing.step_expireWin (ht : Timing s l w) (hl : Local s w) (hr : s.timers.Represents l)
    (hpc : s.pc .loop = .popped w) (hst : (s.cells w).state = .scheduled)
    (hs : s' = (win (s.setState w (expiredState w)) w .timer).goto .loop
      (.finishing w .timer (expiredStage w)))
    (hat : StepAt s s' .loop w) : TimedStep s' l w := by
  obtain ⟨hco, -⟩ := hl.scheduled hst
  have hown := hl.unowned (.inr (.inr ⟨hco, hst⟩))
  obtain ⟨hn, -, -⟩ := ht.popped hpc
  have hno : ∀ b st, b ≠ .loop → s.pc b ≠ .adding w st := by
    intro b st _ hb
    by_cases hbs : st.BeforeStore w
    · exact hown b (by rw [hb]; exact ⟨rfl, hbs⟩)
    · exact (ht.late_out hb hbs).2 hpc
  subst hs
  refine .kept hr (.won hat (fun b _ => hown b) hno ?_ ht.pending hco ?_ (by simp))
  · cases w <;> simpa [Pc.Keeps, expiredStage, Ended, Out, win] using hn
  · cases w <;> simp [win, expiredState]

/-- `cancelTimer` erases an item that is linked, or does nothing. -/
theorem Timing.step_cancel (ht : Timing s l w) (hl : Local s w) (hr : s.timers.Represents l)
    (hpc : s.pc a = .finishing w p .cancel)
    (hs : s' = (cancelTimer s w).goto a (.finishing w p .reset)) (hat : StepAt s s' a w) :
    TimedStep s' l w := by
  have hatt : Attached s l w := ht.finishing hpc
  have hpc' : s'.pc a = .finishing w p .reset := by simp [hs]
  by_cases htarget : (s.cells w).target = none
  · have hsame : cancelTimer s w = s := if_neg (not_not.mpr htarget)
    rw [hsame] at hs
    subst hs
    exact .kept hr (ht.goesOn hl hat hpc hpc' rfl rfl ht.pending fun hnp =>
      ⟨(hatt.1 htarget).1, hnp⟩)
  · have herase : cancelTimer s w = { s with timers := (millListErase s.timers w).1 }.setPending w
      false := if_pos htarget
    obtain ⟨l', hr', hmem⟩ := erase_represents hr (hatt.2 htarget)
    have hnin : w ∉ l' := fun h => ((hmem w).mp h).2 rfl
    rw [herase] at hs
    subst hs
    refine ⟨l', hr', fun u hu => by simp [hmem, hu], ?_⟩
    exact ht.goesOn hl hat hpc hpc' rfl rfl (by simp [hnin]) fun hnp => ⟨hnin, hnp⟩

theorem Timing.step_await {coro : ℕ} (ht : Timing s l w) (hl : Local s w)
    (hr : s.timers.Represents l) (hco : s.co w = .outside)
    (hs : s' = (((s.setCell w { s.cells w with coro := some coro }).setCo w
      (.suspending t)).setWaits w (.fresh :: s.waits w)).goto (.thread t)
        (.adding w (firstStage w)))
    (hat : StepAt s s' (.thread t) w) : TimedStep s' l w := by
  obtain ⟨hown, hno, hout, -⟩ := ht.unawaited hl (.inl hco)
  subst hs
  refine .kept hr (.adds hat (fun b _ => hown b) (fun b st _ => hno b st)
    (Function.update_self ..) ht.pending (.inl ⟨t, by simp⟩) ?_ ?_)
  · cases w <;> simpa [firstStage, Placed, Out] using hout
  · simpa using fun h => absurd h hout.2

/-- Where no Timer is wanted the registration is followed by the store of `scheduled`. -/
theorem Timing.step_ctlOk {e : ℕ} {op : CtlOp} (ht : Timing s l (.event e))
    (hl : Local s (.event e)) (hr : s.timers.Represents l)
    (hpc : s.pc (.thread t) = .adding (.event e) (.ctl op))
    (hok : (s.cells (.event e)).dd ≤ 0 → (s.cells (.event e)).target = none)
    (hs : s' = { s with epoll := Function.update s.epoll (s.fd e) (some ⟨e, s.ion e⟩) }.goto
      (.thread t) (.adding (.event e) (if 0 < (s.cells (.event e)).dd then .target else .store)))
    (hat : StepAt s s' (.thread t) (.event e)) : TimedStep s' l (.event e) := by
  obtain ⟨hco, hno, hst, hwa⟩ := hl.adding hpc trivial
  have hout : Out s l (.event e) := ht.adding hpc
  have hout' : Out s' l (.event e) := by simpa [hs, Out] using hout
  subst hs
  refine .kept hr (.adds hat hno (ht.alone hpc)
    (Function.update_self ..) ht.pending (.inl ⟨t, hco⟩) ?_ fun h => absurd h hout'.2)
  split_ifs with hdd
  · exact ⟨by simpa [hdd] using hout', hdd⟩
  · simp only [if_neg hdd] at hout'
    have htarget := hok (Int.not_lt.mp hdd)
    exact ⟨fun _ => hout', fun h => absurd htarget h, fun e' _ h => absurd h hdd⟩

theorem Timing.step_storeFired {e : ℕ} {flags : Flags} (ht : Timing s l (.event e))
    (hl : Local s (.event e)) (hr : s.timers.Represents l) (hpc : s.pc .loop = .fired e flags)
    (hs : s' = (s.setState (.event e) (if flags.failed then .error else .fired)).goto .loop
      (.finishing (.event e) (.epoll flags) .check))
    (hat : StepAt s s' .loop (.event e)) : TimedStep s' l (.event e) := by
  obtain ⟨hco, hown, hst, -⟩ := hl.fired hpc
  have hno := ht.no_adder hl (by simp [hco]) (by simp [hst])
  have hatt : Attached s l (.event e) := by
    have hk := ht.agents .loop
    rw [hpc] at hk
    exact hk rfl
  subst hs
  refine .kept hr (.won hat hown (fun b st _ => hno b st) ?_ ht.pending hco ?_ (by simp))
  · simpa [Pc.Keeps, Ended, Attached, Out, hpc] using hatt
  · cases hf : flags.failed <;> simp

theorem Timing.step_check (ht : Timing s l w) (hl : Local s w) (hr : s.timers.Represents l)
    (hpc : s.pc a = .finishing w p .check)
    (hat : StepAt s (s.goto a (.finishing w p (if (s.cells w).target = none then .del else .cancel)))
      a w) :
    TimedStep (s.goto a (.finishing w p (if (s.cells w).target = none then .del else .cancel)))
      l w := by
  have hatt : Attached s l w := ht.finishing hpc
  refine .kept hr (ht.goesOn hl hat hpc (Function.update_self ..) rfl rfl ht.pending fun hnp => ?_)
  by_cases htarget : (s.cells w).target = none
  · rw [if_pos htarget] at hnp ⊢
    exact ⟨(hatt.1 htarget).1, hnp⟩
  · rw [if_neg htarget]
    exact ⟨fun h => absurd h htarget, hatt.2⟩

/-- The deadline of an Event that is not awaited. -/
theorem Timing.step_configure {e : ℕ} {ion : Direction} {dd : Int} (ht : Timing s l (.event e))
    (hl : Local s (.event e)) (hr : s.timers.Represents l) (hco : s.co (.event e) = .outside)
    (hst : (s.cells (.event e)).state = .created)
    (hs : s' = { s.setCell (.event e) { s.cells (.event e) with dd := dd } with
      ion := Function.update s.ion e ion })
    (hat : StepAt s s' .loop (.event e)) : TimedStep s' l (.event e) := by
  obtain ⟨hown, hno, hout, habout⟩ := ht.unawaited hl (.inl hco)
  subst hs
  exact .kept hr (.quiet hat (fun b _ => hown b) (fun b st _ => hno b st) habout ht.pending hout
    (by simp [hst]))

/-- The descriptor is registered already: `add` tries again. -/
theorem Timing.step_ctlExist {e : ℕ} {op : CtlOp} (ht : Timing s l (.event e))
    (hl : Local s (.event e)) (hr : s.timers.Represents l)
    (hpc : s.pc (.thread t) = .adding (.event e) (.ctl op))
    (hs : s' = s.goto (.thread t) (.adding (.event e) (.ctl .mod)))
    (hat : StepAt s s' (.thread t) (.event e)) : TimedStep s' l (.event e) := by
  obtain ⟨hco, hno, -, -⟩ := hl.adding hpc trivial
  have hout : Out s l (.event e) := ht.adding hpc
  subst hs
  refine .kept hr (.adds hat hno (ht.alone hpc) (Function.update_self ..) ht.pending
    (.inl ⟨t, hco⟩) ?_ ?_)
  · simpa [Placed, Out] using hout
  · simpa using fun h => absurd h hout.2

theorem Timing.step_ctlFail {e : ℕ} {op : CtlOp} (ht : Timing s l (.event e))
    (hl : Local s (.event e)) (hr : s.timers.Represents l)
    (hpc : s.pc (.thread t) = .adding (.event e) (.ctl op))
    (hs : s' = (s.goto (.thread t) .idle).setCo (.event e) .suspended)
    (hat : StepAt s s' (.thread t) (.event e)) : TimedStep s' l (.event e) := by
  obtain ⟨-, hno, hst, -⟩ := hl.adding hpc trivial
  have hout : Out s l (.event e) := ht.adding hpc
  subst hs
  refine .kept hr (.quiet hat hno (ht.alone hpc) ?_ ht.pending ?_ ?_)
  · simp [Pc.About]
  · simpa [Out] using hout
  · simp [hst]

theorem Timing.step_target (ht : Timing s l w) (hl : Local s w) (hr : s.timers.Represents l)
    (hpc : s.pc (.thread t) = .adding w .target)
    (hat : StepAt s (addTarget s t w) (.thread t) w) : TimedStep (addTarget s t w) l w := by
  have hco := ht.adding_co hl hpc
  have hp := ht.adding hpc
  refine .kept hr (.adds hat (ht.adding_unowned hl hpc) (ht.alone hpc)
    (Function.update_self ..) ht.pending (by simpa [addTarget] using hco) ?_ ?_)
  · cases w <;> simpa [Placed, Out, addTarget] using hp
  · cases w <;> simpa [addTarget] using fun h => absurd h hp.1.2

/-- `remove` wins the wait while nobody else deals with the Timer. -/
theorem Timing.step_removeWin (ht : Timing s l w) (hl : Local s w) (hr : s.timers.Represents l)
    (hst : (s.cells w).state = .scheduled) (hnp : s.pc .loop ≠ .popped w)
    (hno : ∀ b st, s.pc b ≠ .adding w st)
    (hs : s' = (win (s.setState w .abandoned) w (.remove t)).goto (.thread t)
      (.finishing w (.remove t) (removeStage w)))
    (hat : StepAt s s' (.thread t) w) : TimedStep s' l w := by
  subst hs
  refine .kept hr (ht.wins hl hat hst hno hnp (fun hatt => ?_) rfl rfl (by simp [win])
    (by simpa [win] using hnp))
  cases w <;> simpa [Pc.Keeps, removeStage, Ended, Attached, Out, win] using hatt

theorem Timing.step_dispatchWin {e : ℕ} {flags : Flags} {mode : Mode} (ht : Timing s l (.event e))
    (hl : Local s (.event e)) (hr : s.timers.Represents l) (hpc : s.pc .loop = .idle)
    (hst : (s.cells (.event e)).state = .scheduled)
    (hs : s' = { win (s.setState (.event e) .fired) (.event e) (.epoll flags) with
      mode := mode }.goto .loop (.fired e flags))
    (hat : StepAt s s' .loop (.event e)) : TimedStep s' l (.event e) := by
  obtain ⟨hco, -⟩ := hl.scheduled hst
  have hown := hl.unowned (.inr (.inr ⟨hco, hst⟩))
  have hno : ∀ b st, s.pc b ≠ .adding (.event e) st := fun b st h =>
    hown b (by rw [h]; exact ⟨rfl, trivial⟩)
  subst hs
  refine .kept hr (ht.wins hl hat hst hno (by simp [hpc]) (fun hatt => ?_) rfl rfl
    (by simp [win]) (by simp))
  simpa [Pc.Keeps, Attached, Out, win, hpc] using hatt

theorem Timing.step_pop (ht : Timing s l w) (hl : Local s w) (hr : s.timers.Represents l)
    (hpc : s.pc .loop = .idle) (hfirst : s.timers.first = some w)
    (hst : (s.cells w).state ≠ .abandoned)
    (hs : s' = ({ s with timers := (millListErase s.timers w).1 }.setPending w false).goto .loop
      (.popped w))
    (hat : StepAt s s' .loop w) : TimedStep s' l w := by
  have hin : w ∈ l := List.mem_of_head? (hr.first ▸ hfirst)
  obtain ⟨l', hr', hmem⟩ := erase_represents hr hin
  have hnin : w ∉ l' := fun h => ((hmem w).mp h).2 rfl
  subst hs
  refine ⟨l', hr', fun u hu => by simp [hmem, hu], ?_⟩
  exact ht.pops hl hin hpc hst hat hnin (by simp) rfl rfl (by simp)

theorem Timing.step_reset (ht : Timing s l w) (hl : Local s w) (hr : s.timers.Represents l)
    (hpc : s.pc a = .finishing w p .reset)
    (hat : StepAt s ((resetTimer s w).goto a (.finishing w p (afterReset w))) a w) :
    TimedStep ((resetTimer s w).goto a (.finishing w p (afterReset w))) l w := by
  have hout : Out s l w := ht.finishing hpc
  refine .kept (hr.unlink hout.1) (ht.goesOn hl hat hpc (Function.update_self ..)
    (by simp [resetTimer]) rfl ht.pending fun hnp => ?_)
  cases w <;> exact ⟨hout.1, hnp⟩

theorem Timing.step_del (ht : Timing s l w) (hl : Local s w) (hr : s.timers.Represents l)
    (hpc : s.pc a = .finishing w p .del)
    (hat : StepAt s ((delEntry s w).goto a (.finishing w p .resume)) a w) :
    TimedStep ((delEntry s w).goto a (.finishing w p .resume)) l w := by
  have hout : Out s l w := ht.finishing hpc
  have hr' : (delEntry s w).timers.Represents l := by cases w <;> exact hr
  exact .kept hr' (ht.goesOn hl hat hpc (Function.update_self ..) (by simp) (by simp)
    (by simpa using ht.pending) fun hnp => ⟨hout.1, hnp⟩)

theorem Timing.step_resume (ht : Timing s l w) (hl : Local s w) (hr : s.timers.Represents l)
    (hpc : s.pc a = .finishing w p .resume)
    (hat : StepAt s ((Thread.resume s w p).goto a .idle) a w) :
    TimedStep ((Thread.resume s w p).goto a .idle) l w := by
  obtain ⟨-, hown, hno, hst, hnp, hout⟩ := ht.ends hl hpc
  have hnp' := hat.not_popped hnp (by simp)
  exact .kept hr (.quiet hat hown hno (by simp [Pc.About]) ht.pending ⟨hout.1, hnp'⟩
    (by simpa [Thread.resume] using hst.1))

theorem Timing.step_awaitResume (ht : Timing s l w) (hl : Local s w) (hr : s.timers.Represents l)
    (hco : s.co w = .resumed)
    (hs : s' = ((s.setCell w (resumedCell w (s.cells w))).setCo w .outside).setWaits w
      ((s.waits w).modifyHead fun x => { x with result := some (s.cells w).state }))
    (hat : StepAt s s' .loop w) : TimedStep s' l w := by
  obtain ⟨hown, hno, hout, habout⟩ := ht.unawaited hl (.inr hco)
  subst hs
  refine .kept hr (.quiet hat (fun b _ => hown b) (fun b st _ => hno b st) habout ht.pending
    hout ?_)
  cases w <;> simp [resumedCell]

theorem Timing.step_at (hl : ∀ v, Local s v) (ht : Timing s l v) (hr : s.timers.Represents l)
    (h : Step s act s') (hok : TimersKept s act) (hobj : act.object s = v) :
    TimedStep s' l v := by
  have hat := h.stepAt fun w => (hl w).self
  rw [hobj] at hat
  have hv := hl v
  cases h with
  | @configure e _ _ hco hst =>
    subst hobj
    exact ht.step_configure hv hr hco hst rfl hat
  | @awaitReady t w coro hpc hco hst =>
    have hph := (hl w).phase
    simp [Phase, hco, hst] at hph
  | @awaitSuspend t w coro hpc hco hst =>
    subst hobj
    exact ht.step_await hv hr hco rfl hat
  | @ctlOk t _ e op hpc hset =>
    obtain rfl : Waiter.event e = v := Act.object_eq hobj hpc rfl
    exact ht.step_ctlOk hv hr hpc (hok e op hpc) rfl hat
  | @ctlExist t _ e op hpc hset =>
    obtain rfl : Waiter.event e = v := Act.object_eq hobj hpc rfl
    exact ht.step_ctlExist hv hr hpc rfl hat
  | @ctlFail t _ e op hpc =>
    obtain rfl : Waiter.event e = v := Act.object_eq hobj hpc rfl
    exact ht.step_ctlFail hv hr hpc rfl hat
  | @target t _ _ w hpc =>
    obtain rfl : w = v := Act.object_eq hobj hpc rfl
    exact ht.step_target hv hr hpc hat
  | @link t _ _ w timers hpc hadd =>
    obtain rfl : w = v := Act.object_eq hobj hpc rfl
    exact ht.step_link hv hr hpc hadd rfl hat
  | @store t _ _ w hpc =>
    obtain rfl : w = v := Act.object_eq hobj hpc rfl
    exact ht.step_store hv hr hpc hat
  | @removeCall t w hpc | @removeLose t w _ hpc hst =>
    exact .kept hr (ht.same (.of_goto rfl (by simp [hpc, Pc.About])
      (by simp [Pc.About]) rfl rfl rfl rfl) Iff.rfl)
  | wait hmode hpc hb | beginExpire hmode hpc | popNone hmode hpc | dispatchLose hmode hpc hst =>
    exact .kept hr (ht.same ⟨rfl, rfl, rfl, rfl, fun _ _ _ => Iff.rfl⟩ Iff.rfl)
  | @removeWin t w hpc hst =>
    obtain rfl : w = v := Act.object_eq hobj hpc rfl
    obtain ⟨hnp, hno⟩ := hok w hpc rfl hst
    exact ht.step_removeWin hv hr hst hnp hno rfl hat
  | @dispatchWin r rest hmode hpc hst =>
    obtain rfl : Waiter.event r.ptr = v := by simpa [Act.object, hmode] using hobj
    exact ht.step_dispatchWin hv hr hpc hst rfl hat
  | @storeFired e flags hpc =>
    obtain rfl : Waiter.event e = v := Act.object_eq hobj hpc rfl
    exact ht.step_storeFired hv hr hpc rfl hat
  | @pop tp w hmode hpc hfirst hdd =>
    obtain rfl : w = v := by simpa [Act.object, hfirst] using hobj
    exact ht.step_pop hv hr hpc hfirst (hok w hfirst) rfl hat
  | @expireLose it w _ hpc htarget hst =>
    obtain rfl : it = v := Act.object_eq hobj hpc rfl
    obtain rfl : it = w := by simpa [htarget, eq_comm] using hv.self
    have hk := hok it hpc
    simp [hk] at hst
  | @expireWin it w hpc htarget hst =>
    obtain rfl : it = v := Act.object_eq hobj hpc rfl
    obtain rfl : it = w := by simpa [htarget, eq_comm] using hv.self
    exact ht.step_expireWin hv hr hpc hst rfl hat
  | @check a w p hpc =>
    obtain rfl : w = v := Act.object_eq hobj hpc rfl
    exact ht.step_check hv hr hpc hat
  | @cancel a w p hpc =>
    obtain rfl : w = v := Act.object_eq hobj hpc rfl
    exact ht.step_cancel hv hr hpc rfl hat
  | @reset a w p hpc =>
    obtain rfl : w = v := Act.object_eq hobj hpc rfl
    exact ht.step_reset hv hr hpc hat
  | @del a w p hpc =>
    obtain rfl : w = v := Act.object_eq hobj hpc rfl
    exact ht.step_del hv hr hpc hat
  | @resume a w p hpc hcoro =>
    obtain rfl : w = v := Act.object_eq hobj hpc rfl
    exact ht.step_resume hv hr hpc hat
  | @awaitResume w hco =>
    subst hobj
    exact ht.step_awaitResume hv hr hco rfl hat

theorem Timing.init (fd : ℕ → Int) (ion : ℕ → Direction) (dd : Waiter → Int) (v : Waiter) :
    Timing (.start fd ion dd) [] v := by
  refine ⟨?_, ?_, ?_, ?_, ?_, ?_⟩ <;> simp [Sys.start, Out, Pc.Keeps]

/-- The items of `_timers` and where the Timer of every object is. -/
structure TimersOk (s : Sys) : Prop where
  locals : ∀ v, Local s v
  timing : ∃ l, s.timers.Represents l ∧ ∀ v, Timing s l v

theorem timersOk_inductive : system.Inductive TimersKept TimersOk where
  init := by
    rintro _ ⟨fd, ion, dd, rfl⟩
    exact ⟨Local.init fd ion dd, [], empty_represents, Timing.init fd ion dd⟩
  step s act s' hs hok h := by
    obtain ⟨hl, l, hr, ht⟩ := hs
    have hstep := next_step h
    obtain ⟨l', hr', hmem, hat⟩ := Timing.step_at hl (ht _) hr hstep hok rfl
    refine ⟨Local.step hl hstep, l', hr', fun v => ?_⟩
    by_cases hv : v = act.object s
    · exact hv ▸ hat
    · exact (ht v).same ((hstep.stepAt fun w => (hl w).self).same v hv) (hmem v hv)

/-- Every erase that `cancelTimer` is about to make is of a linked item, and every timer
that was added and neither cancelled nor popped is found from `_timers.first`. -/
structure TimersUndisturbed (s : Sys) : Prop where
  cancels : ∀ a w p, s.pc a = .finishing w p .cancel → (s.cells w).target ≠ none →
    s.timers.Reaches w
  pending : ∀ w, s.pending w = true → s.timers.Reaches w

theorem timers_undisturbed (h : system.ReachableBy TimersKept s) : TimersUndisturbed s := by
  obtain ⟨-, l, hr, ht⟩ := timersOk_inductive.holds h
  refine ⟨fun a w p hpc htarget => ?_, fun w hw => ?_⟩
  · have hatt : Attached s l w := (ht w).finishing hpc
    exact hr.reaches_iff.mpr (hatt.2 htarget)
  · exact hr.reaches_iff.mpr ((ht w).pending.mp hw)

/-- A test that is enough for `TimersKept`, and for `NoRemove` and `ExpiresInTime`. -/
def keepsTimers (s : Sys) : Act → Bool
  | .expire _ | .remove _ _ | .removeCas _ _ => false
  | .popExpired => match s.timers.first with
    | some w => (s.cells w).state ≠ .abandoned
    | none => true
  | .add t _ _ => match s.pc (.thread t) with
    | .adding (.event e) (.ctl _) => (s.cells (.event e)).target = none
    | _ => true
  | _ => true

theorem timersKept_of_keepsTimers (s : Sys) (act : Act) (h : keepsTimers s act = true) :
    TimersKept s act := by
  cases act with
  | add t fuel ans =>
    cases ans with
    | ok =>
      intro e op hpc _
      simpa [keepsTimers, hpc] using h
    | exist | fail => trivial
  | popExpired =>
    intro w hw
    simpa [keepsTimers, hw] using h
  | expire | removeCas => simp [keepsTimers] at h
  | _ => trivial

/-- Two reads with a deadline on two descriptors. -/
def twoReads : List Act :=
  [.await 0 (.event 0) 7, .add 0 9 .ok, .add 0 9 .ok, .add 0 9 .ok, .add 0 9 .ok,
    .await 1 (.event 1) 8, .add 1 9 .ok, .add 1 9 .ok, .add 1 9 .ok, .add 1 9 .ok]

/-- The first of the two becomes ready, and `handleEvent` cancels its timer. -/
def firstReady : List Act :=
  twoReads ++ [.wait [⟨5, 0, ⟨true, false, false, false⟩⟩], .dispatch false, .storeFired,
    .finish .loop, .finish .loop]

theorem timers_undisturbed_firstReady : ∃ s, system.ReachableBy TimersKept s ∧
    s.pending (.event 0) = false ∧ s.pending (.event 1) = true ∧ TimersUndisturbed s := by
  obtain ⟨s, hs, hp⟩ := system.exists_reachableBy_of_runIf keepsTimers firstReady
    (fun s => !s.pending (.event 0) && s.pending (.event 1)) timersKept_of_keepsTimers
    ⟨fun e => 5 + e, fun _ => .IN, fun w => if w = .event 0 then 5 else 9, rfl⟩ (by decide)
  simp only [Bool.and_eq_true, Bool.not_eq_eq_eq_not, Bool.not_true] at hp
  exact ⟨s, hs, hp.1, hp.2, timers_undisturbed hs⟩

/-- `fireExpiredTimers` pops the first of the two timers, and `remove` wins before it does. -/
def removedAfterPop : List Act :=
  twoReads ++ [.wait [], .beginExpire 6, .popExpired, .remove 2 (.event 0), .removeCas 2 false,
    .finish (.thread 2), .finish (.thread 2)]

theorem cancel_disturbs : ¬ ∀ s, system.Reachable s → TimersUndisturbed s := by
  intro h
  obtain ⟨s, hs, hp⟩ := system.exists_reachable_of_run removedAfterPop
    (fun s => s.timers.first = none && s.pending (.event 1))
    ⟨fun e => 5 + e, fun _ => .IN, fun w => if w = .event 0 then 5 else 9, rfl⟩ (by decide)
  simp only [Bool.and_eq_true, decide_eq_true_eq] at hp
  exact not_reaches_of_first hp.1 ((h s hs).pending _ hp.2)

def Act.isRemove : Act → Bool
  | .remove _ _ => true
  | _ => false

/-- No call of `remove`. -/
def NoRemove (_ : Sys) (act : Act) : Prop := act.isRemove = false

/-- `fireExpiredTimers` finds the Event of a popped timer scheduled, and no Event whose last
wait has timed out is added again without a deadline. -/
def ExpiresInTime (s : Sys) : Act → Prop
  | .expire spurious => ∀ e, s.pc .loop = .popped (.event e) →
      spurious = false ∧ (s.cells (.event e)).state = .scheduled
  | .add t _ .ok => ∀ e op, s.pc (.thread t) = .adding (.event e) (.ctl op) →
      (s.cells (.event e)).dd ≤ 0 → (s.cells (.event e)).target = none
  | _ => True

/-- Without calls of `remove` nothing is abandoned. -/
structure Unremoved (s : Sys) : Prop where
  pc : ∀ t w, s.pc (.thread t) ≠ .removing w
  state : ∀ w, (s.cells w).state ≠ .abandoned

theorem resumedCell_state (c : Cell) : (resumedCell w c).state = .created := by cases w <;> rfl

theorem linkedPc_ne_removing : linkedPc w ≠ .removing v := by cases w <;> simp [linkedPc]

theorem storedPc_ne_removing : storedPc w ≠ .removing v := by cases w <;> simp [storedPc]

theorem Unremoved.step (hu : Unremoved s) (hok : NoRemove s act) (h : Step s act s') :
    Unremoved s' := by
  obtain ⟨hpc, hst⟩ := hu
  cases h with
  | removeCall => cases hok
  | removeLose h | removeWin h => exact absurd h (hpc _ _)
  | _ =>
    refine ⟨fun t w => ?_, fun w => ?_⟩
    · have := hpc t w
      simp [Function.update_apply, addTarget, addStore, win, resetTimer, Thread.resume] at this ⊢
      grind [linkedPc_ne_removing, storedPc_ne_removing]
    · have := hst w
      simp [Function.update_apply, addTarget, addStore, win, resetTimer, Thread.resume] at this ⊢
      grind [resumedCell_state, expiredState_ne]

theorem Unremoved.start (fd : ℕ → Int) (ion : ℕ → Direction) (dd : Waiter → Int) :
    Unremoved (.start fd ion dd) := ⟨by simp [Sys.start], by simp [Sys.start]⟩

/-- A Delay whose timer was popped, with a compare-exchange that failed: nobody deals with it any
more. -/
structure Lost (s : Sys) (l : List Waiter) (v : Waiter) : Prop where
  delay : ∃ d, v = .delay d
  waits : s.co v = .suspended ∧ (s.cells v).state = .scheduled
  pending : s.pending v = false
  out : Out s l v
  unadded : ∀ a st, s.pc a ≠ .adding v st

theorem Lost.same (h : Lost s l v) (hs : SameAt s s' v) (hl : v ∈ l' ↔ v ∈ l) : Lost s' l' v where
  delay := h.delay
  waits := by
    rw [hs.co, hs.cells]
    exact h.waits
  pending := hs.pending.trans h.pending
  out := (Out.same hs hl).mpr h.out
  unadded a st hpc := h.unadded a st (hs.adding.mp hpc)

/-- Without calls of `remove` no step is about it. -/
theorem Lost.not_object (h : Lost s l v) (hl : Local s v) (hr : s.timers.Represents l)
    (hu : Unremoved s) (hok : NoRemove s act) (hs : Step s act s') : act.object s ≠ v := by
  obtain ⟨d, rfl⟩ := h.delay
  have hown : ∀ a, ¬ (s.pc a).Owns (.delay d) := hl.unowned (.inr (.inr h.waits))
  have hadding {a : Agent} {w : Waiter} {st : AddStage} (hpc : s.pc a = .adding w st) :
      w ≠ .delay d := fun heq => h.unadded a st (heq ▸ hpc)
  have hfinishing {a : Agent} {p : Party} {w : Waiter} {st : FinishStage}
      (hpc : s.pc a = .finishing w p st) : w ≠ .delay d :=
    fun heq => hown a (by rw [hpc]; exact heq)
  have hfirst {w : Waiter} (hw : s.timers.first = some w) : w ≠ .delay d :=
    ne_of_mem_of_not_mem (List.mem_of_head? (hr.first ▸ hw)) h.out.1
  have hwaits : s.co (.delay d) = .suspended := h.waits.1
  cases hs with
  | @awaitReady t w coro hpc hco | @awaitSuspend t w coro hpc hco =>
    rintro rfl
    cases hwaits.symm.trans hco
  | target hpc | link hpc | store hpc =>
    simpa [Act.object, Act.agent, hpc, Pc.object] using hadding hpc
  | ctlOk hpc | ctlExist hpc | ctlFail hpc => simp [Act.object, Act.agent, hpc, Pc.object]
  | removeCall => cases hok
  | removeLose hpc | removeWin hpc => exact absurd hpc (hu.pc _ _)
  | dispatchLose hmode | dispatchWin hmode => simp [Act.object, hmode]
  | wait _ hpc | beginExpire _ hpc => simp [Act.object, Act.agent, hpc, Pc.object]
  | popNone | pop =>
    rw [Act.object]
    cases hw : s.timers.first with
    | none => simp
    | some w => exact hfirst hw
  | expireLose hpc | expireWin hpc =>
    have hne := h.out.2
    rw [hpc] at hne
    simpa [Act.object, Act.agent, hpc, Pc.object] using hne
  | storeFired hpc => simp [Act.object, Act.agent, hpc, Pc.object]
  | check hpc | cancel hpc | reset hpc | del hpc | resume hpc =>
    simpa [Act.object, Act.agent, hpc, Pc.object] using hfinishing hpc
  | awaitResume hco =>
    rintro rfl
    cases hwaits.symm.trans hco
  | configure => simp [Act.object]

/-- A popped Delay is scheduled: `add` stores that before it links the timer. -/
theorem Timing.popped_delay {d : ℕ} (ht : Timing s l (.delay d))
    (hpc : s.pc .loop = .popped (.delay d)) : (s.cells (.delay d)).state = .scheduled := by
  obtain ⟨-, -, hst | ⟨a, ha⟩⟩ := ht.popped hpc
  · exact hst
  · have hout : Out s l (.delay d) := ht.adding ha
    exact absurd hpc hout.2

/-- The compare-exchange on a popped Delay fails. -/
theorem Timing.lost {d : ℕ} (ht : Timing s l (.delay d)) (hl : Local s (.delay d))
    (hpc : s.pc .loop = .popped (.delay d)) : Lost (s.goto .loop .idle) l (.delay d) := by
  have hst := ht.popped_delay hpc
  obtain ⟨hco, -⟩ := hl.scheduled hst
  obtain ⟨hn, -, -⟩ := ht.popped hpc
  refine ⟨⟨d, rfl⟩, ⟨hco, hst⟩, ?_, ⟨hn, by simp⟩, fun a st ha => ?_⟩
  · exact Bool.eq_false_iff.mpr fun hp => hn (ht.pending.mp hp)
  · have hne : a ≠ .loop := by
      rintro rfl
      simp at ha
    have ha' : s.pc a = .adding (.delay d) st := by simpa [hne] using ha
    have hplaced := ht.adding ha'
    cases st with
    | ctl op => exact hplaced
    | store => exact hplaced.2 hpc
    | target | link => exact hplaced.1.2 hpc

/-- Without calls of `remove`, the Timers of all objects are in order, but for lost Delays. -/
structure TimersHeld (s : Sys) : Prop where
  locals : ∀ v, Local s v
  unremoved : Unremoved s
  timing : ∃ l, s.timers.Represents l ∧ ∀ v, Timing s l v ∨ Lost s l v

theorem timersKept_of_expiresInTime (hu : Unremoved s) (hok : NoRemove s act ∧ ExpiresInTime s act)
    (hdelay : ∀ spurious d, act = .expire spurious → s.pc .loop ≠ .popped (.delay d)) :
    TimersKept s act := by
  cases act with
  | removeCas t spurious => exact fun w hpc => absurd hpc (hu.pc t w)
  | popExpired => exact fun w _ => hu.state w
  | expire spurious =>
    intro w hpc
    cases w with
    | event e => exact hok.2 e hpc
    | delay d => exact absurd hpc (hdelay spurious d rfl)
  | add t fuel ans =>
    cases ans with
    | ok => exact hok.2
    | exist | fail => trivial
  | _ => trivial

/-- `fireExpiredTimers` fires the Delay that it has popped, or loses it. -/
theorem Timing.step_expireDelay {spurious : Bool} {d : ℕ} (hl : Local s (.delay d))
    (ht : Timing s l (.delay d)) (hr : s.timers.Represents l)
    (hs : Step s (.expire spurious) s') (hpc : s.pc .loop = .popped (.delay d))
    (hat : StepAt s s' .loop (.delay d)) :
    TimedStep s' l (.delay d) ∨ s'.timers.Represents l ∧ Lost s' l (.delay d) := by
  cases hs with
  | @expireLose it w _ hpc' htarget hst => exact .inr ⟨hr, ht.lost hl hpc⟩
  | @expireWin it w hpc' htarget hst =>
    obtain rfl : it = .delay d := Pc.popped.inj (hpc'.symm.trans hpc)
    obtain rfl : .delay d = w := by simpa [htarget, eq_comm] using hl.self
    exact .inl (ht.step_expireWin hl hr hpc hst rfl hat)

theorem TimersHeld.step (h : TimersHeld s) (hok : NoRemove s act ∧ ExpiresInTime s act)
    (hs : Step s act s') : TimersHeld s' := by
  obtain ⟨hl, hu, l, hr, ht⟩ := h
  have hat := hs.stepAt fun w => (hl w).self
  have hobject : Timing s l (act.object s) :=
    (ht _).resolve_right fun h => h.not_object (hl _) hr hu hok.1 hs rfl
  have hstep : TimedStep s' l (act.object s) ∨
      s'.timers.Represents l ∧ Lost s' l (act.object s) := by
    by_cases hdelay : ∃ spurious d, act = .expire spurious ∧ s.pc .loop = .popped (.delay d)
    · obtain ⟨spurious, d, rfl, hpc⟩ := hdelay
      have hd : (Act.expire spurious).object s = .delay d := by
        simp [Act.object, Act.agent, hpc, Pc.object]
      rw [hd] at hobject hat ⊢
      exact Timing.step_expireDelay (hl _) hobject hr hs hpc hat
    · have hkept := timersKept_of_expiresInTime hu hok fun spurious d hact hpc =>
        hdelay ⟨spurious, d, hact, hpc⟩
      exact .inl (Timing.step_at hl hobject hr hs hkept rfl)
  -- the other objects stay as they are
  have hothers {l' : List Waiter} (hmem : ∀ u, u ≠ act.object s → (u ∈ l' ↔ u ∈ l)) (v : Waiter)
      (hv : v ≠ act.object s) : Timing s' l' v ∨ Lost s' l' v :=
    (ht v).imp (·.same (hat.same v hv) (hmem v hv)) (·.same (hat.same v hv) (hmem v hv))
  refine ⟨Local.step hl hs, hu.step hok.1 hs, ?_⟩
  cases hstep with
  | inl hstep =>
    obtain ⟨l', hr', hmem, hv⟩ := hstep
    refine ⟨l', hr', fun v => ?_⟩
    by_cases heq : v = act.object s
    · exact .inl (heq ▸ hv)
    · exact hothers hmem v heq
  | inr hlost =>
    refine ⟨l, hlost.1, fun v => ?_⟩
    by_cases heq : v = act.object s
    · exact .inr (heq ▸ hlost.2)
    · exact hothers (fun _ _ => Iff.rfl) v heq

theorem timersHeld_inductive :
    system.Inductive (fun s act => NoRemove s act ∧ ExpiresInTime s act) TimersHeld where
  init := by
    rintro _ ⟨fd, ion, dd, rfl⟩
    exact ⟨Local.init fd ion dd, Unremoved.start fd ion dd, [], empty_represents,
      fun v => .inl (Timing.init fd ion dd v)⟩
  step _ _ _ h hok hn := h.step hok (next_step hn)

/-- A scheduled Event with a deadline has its timer linked or about to be fired. -/
def TimeoutHeld (s : Sys) : Prop :=
  ∀ e, (s.cells (.event e)).state = .scheduled → 0 < (s.cells (.event e)).dd →
    s.timers.Reaches (.event e) ∨ s.pc .loop = .popped (.event e)

theorem TimersHeld.timeoutHeld (h : TimersHeld s) : TimeoutHeld s := by
  intro e hst hdd
  obtain ⟨hl, -, l, hr, ht⟩ := h
  have htiming : Timing s l (.event e) := (ht _).resolve_right fun h => by
    obtain ⟨d, hd⟩ := h.delay
    cases hd
  obtain ⟨hco, -⟩ := (hl (.event e)).scheduled hst
  have hown := (hl (.event e)).unowned (.inr (.inr ⟨hco, hst⟩))
  have hc := htiming.scheduled hst fun a st ha => hown a (by rw [ha]; exact ⟨rfl, trivial⟩)
  exact (hc.2.1 (hc.2.2 e rfl hdd)).imp_left hr.reaches_iff.mpr

theorem timeout_held (h : system.ReachableBy (fun s act => NoRemove s act ∧ ExpiresInTime s act) s) :
    TimeoutHeld s :=
  (timersHeld_inductive.holds h).timeoutHeld

theorem expiresInTime_of_keepsTimers (s : Sys) (act : Act) (h : keepsTimers s act = true) :
    NoRemove s act ∧ ExpiresInTime s act := by
  have hk := timersKept_of_keepsTimers s act h
  cases act with
  | add t fuel ans =>
    cases ans with
    | ok => exact ⟨rfl, hk⟩
    | exist | fail => exact ⟨rfl, trivial⟩
  | expire | remove => simp [keepsTimers] at h
  | _ => exact ⟨rfl, trivial⟩

/-- The deadline of the first of two reads has passed. -/
def firstExpired : List Act := twoReads ++ [.wait [], .beginExpire 6, .popExpired]

theorem timeout_held_firstExpired :
    ∃ s, system.ReachableBy (fun s act => NoRemove s act ∧ ExpiresInTime s act) s ∧
      (s.cells (.event 0)).state = .scheduled ∧ s.pc .loop = .popped (.event 0) ∧
      TimeoutHeld s := by
  obtain ⟨s, hs, hp⟩ := system.exists_reachableBy_of_runIf keepsTimers firstExpired
    (fun s => (s.cells (.event 0)).state = .scheduled && s.pc .loop = .popped (.event 0))
    expiresInTime_of_keepsTimers
    ⟨fun e => 5 + e, fun _ => .IN, fun w => if w = .event 0 then 5 else 9, rfl⟩ (by decide)
  simp only [Bool.and_eq_true, decide_eq_true_eq] at hp
  exact ⟨s, hs, hp.1, hp.2, timeout_held hs⟩

/-- The deadline passes while `add` is between `addTimer` and its store of `scheduled`. -/
def expiredDuringAdd : List Act :=
  [.await 0 (.event 0) 7, .add 0 9 .ok, .add 0 9 .ok, .add 0 9 .ok, .wait [], .beginExpire 6,
    .popExpired, .expire false, .add 0 9 .ok]

theorem timeout_lost : ¬ ∀ s, system.ReachableBy NoRemove s → TimeoutHeld s := by
  intro h
  obtain ⟨s, hs, hp⟩ := system.exists_reachableBy_of_runIf (fun _ act => !act.isRemove)
    expiredDuringAdd (fun s => s.timers.first = none && s.pc .loop = .idle &&
      (s.cells (.event 0)).state = .scheduled && 0 < (s.cells (.event 0)).dd)
    (fun s act hok => (by simpa [NoRemove] using hok : NoRemove s act))
    ⟨fun _ => 5, fun _ => .IN, fun _ => 5, rfl⟩ (by decide)
  simp only [Bool.and_eq_true, decide_eq_true_eq] at hp
  rcases h s hs 0 hp.1.2 hp.2 with hr | hr
  · exact not_reaches_of_first hp.1.1.1 hr
  · cases hp.1.1.2.symm.trans hr

end Suil.Async.Thread
