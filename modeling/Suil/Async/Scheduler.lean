import Suil.Async.Registration
import Mathlib.Algebra.Ring.Nat
import Mathlib.Algebra.BigOperators.Group.List.Basic

/-! `Event::await_suspend` and what it calls: `Scheduler::schedule`, `minLoadSchedule`
and `Thread::add`, run without interruption. The answers of `epoll_ctl` are a
parameter. The return value of `Thread::add` gets no further than `schedule`. -/
namespace Suil.Async
open Transition DoublyLinked Thread

/-- What a `suil::Thread` holds: its epoll set, its timers, its queue and its counters. -/
structure Worker where
  epoll : Int → Option Entry
  timers : Links Waiter
  scheduleQ : List ℕ
  inflight : ℕ
  maxInflight : ℕ
  totalQueued : ℕ

/-- The Event and Delay objects with the threads of the scheduler; `tid` is `none`
for `THREAD_ID_ANY`. -/
structure Scheduler where
  cells : Waiter → Cell
  fd : ℕ → Int
  ion : ℕ → Direction
  tid : ℕ → Option ℕ
  threads : List Worker
  totalScheduled : ℕ

def Worker.record (t : Worker) : Worker :=
  { t with
    totalQueued := t.totalQueued + 1
    inflight := t.inflight + 1
    maxInflight := max (t.inflight + 1) t.maxInflight }

/-- The loop of `minLoadSchedule` from thread `i` on. -/
def minLoadFrom (i minLoad tid : ℕ) : List Worker → ℕ
  | [] => tid
  | t :: ts =>
    if t.inflight = 0 then i
    else if t.inflight < minLoad then minLoadFrom (i + 1) t.inflight i ts
    else minLoadFrom (i + 1) minLoad tid ts

def minLoadSchedule (threads : List Worker) : ℕ := minLoadFrom 0 (2 ^ 64 - 1) 0 threads

/-- The loop at `TRY_OP`: the epoll set after a success, or `none` inside when `add` gives up. -/
def tryOp (set : Int → Option Entry) (fd : Int) (ev : Entry) :
    CtlOp → List CtlAnswer → Option (Option (Int → Option Entry))
  | _, [] => none
  | op, .ok :: _ => (epollCtl set op fd ev .ok).map some
  | op, .exist :: rest => (epollCtl set op fd ev .exist).bind fun _ => tryOp set fd ev .mod rest
  | op, .fail :: _ => (epollCtl set op fd ev .fail).map fun _ => none

namespace Scheduler

def setCell (S : Scheduler) (w : Waiter) (c : Cell) : Scheduler :=
  { S with cells := Function.update S.cells w c }

/-- What `Thread::add(Event*)` does to the timers of the thread when the Event has a deadline. -/
def armTimer (S : Scheduler) (t : Worker) (e fuel : ℕ) : Option (Scheduler × Worker) :=
  let w := Waiter.event e
  if 0 < (S.cells w).dd then
    let S := S.setCell w { S.cells w with target := some w }
    (scanTimers (fun w => (S.cells w).dd) t.timers (S.cells w).dd fuel t.timers.first).map fun it =>
      (S, { t with timers := millListInsert t.timers w it })
  else some (S, t)

/-- `Thread::add(Event*)` on thread `i`, with its return value. -/
def threadAdd (S : Scheduler) (i e fuel : ℕ) (answers : List CtlAnswer) :
    Option (Scheduler × Bool) :=
  let w := Waiter.event e
  S.threads[i]?.bind fun t =>
    if (S.cells w).state = .scheduled ∨ S.fd e = -1 ∨ (S.cells w).coro = none then none
    else (tryOp t.epoll (S.fd e) ⟨e, S.ion e⟩ .add answers).bind fun
      | none => some (S, false)
      | some set => (S.armTimer { t with epoll := set } e fuel).map fun (S, t) =>
        ({ S.setCell w { S.cells w with state := .scheduled } with
          threads := S.threads.set i t.record }, true)

/-- `Scheduler::schedule(Event*)` drops what `Thread::add` returns. -/
def schedule (S : Scheduler) (e fuel : ℕ) (tid : Option ℕ) (answers : List CtlAnswer) :
    Option Scheduler :=
  let i := tid.getD (minLoadSchedule S.threads)
  if i < S.threads.length then
    (S.threadAdd i e fuel answers).map fun (S, _) => { S with totalScheduled := S.totalScheduled + 1 }
  else none

def awaitSuspend (S : Scheduler) (e coroutine fuel : ℕ) (answers : List CtlAnswer) :
    Option Scheduler :=
  let w := Waiter.event e
  if (S.cells w).state = .created then
    (S.setCell w { S.cells w with coro := some coroutine }).schedule e fuel (S.tid e) answers
  else none

/-- The places of a coroutine in the queues of the threads. -/
def queued (S : Scheduler) (coroutine : ℕ) : ℕ :=
  (S.threads.map fun t => t.scheduleQ.count coroutine).sum

/-- The Event is scheduled with a live wake source, or the coroutine is queued to run and
will see a failure. -/
def Settled (S S' : Scheduler) (e coroutine : ℕ) : Prop :=
  ((S'.cells (.event e)).state = .scheduled ∧ ∃ t ∈ S'.threads,
    t.epoll (S'.fd e) = some ⟨e, S'.ion e⟩ ∨ t.timers.Reaches (.event e)) ∨
  S.queued coroutine < S'.queued coroutine ∧
    (S'.cells (.event e)).state ∈ [.error, .abandoned, .timeout]

/-- The last call of `epoll_ctl` that `add` makes answers 0. -/
def Accepted (answers : List CtlAnswer) : Prop := answers.find? (· ≠ .exist) = some .ok

variable {S S' : Scheduler} {e coroutine fuel i : ℕ} {answers : List CtlAnswer} {t t' : Worker}

theorem tryOp_accepted {set : Int → Option Entry} {fd : Int} {ev : Entry} {op : CtlOp}
    {r : Option (Int → Option Entry)} (h : tryOp set fd ev op answers = some r) :
    (Accepted answers ∧ ∃ set', r = some set' ∧ set' fd = some ev) ∨ ¬ Accepted answers ∧ r = none := by
  induction answers generalizing op with
  | nil => cases h
  | cons ans rest ih =>
    cases ans with
    | ok =>
      simp only [tryOp, epollCtl, Option.map_eq_some_iff, Option.ite_none_right_eq_some,
        Option.some.injEq] at h
      obtain ⟨_, ⟨-, rfl⟩, rfl⟩ := h
      exact .inl ⟨rfl, _, rfl, by simp⟩
    | exist =>
      obtain ⟨_, -, h⟩ := Option.bind_eq_some_iff.mp h
      simpa [Accepted] using ih h
    | fail =>
      obtain ⟨_, -, rfl⟩ := Option.map_eq_some_iff.mp h
      exact .inr ⟨by simp [Accepted], rfl⟩

theorem armTimer_frame (h : S.armTimer t e fuel = some (S', t')) :
    S'.fd = S.fd ∧ S'.ion = S.ion ∧ S'.threads = S.threads ∧ t'.epoll = t.epoll ∧
      t'.scheduleQ = t.scheduleQ := by
  simp only [armTimer] at h
  split_ifs at h with hdd
  · obtain ⟨it, -, h⟩ := Option.map_eq_some_iff.mp h
    cases h
    exact ⟨rfl, rfl, rfl, rfl, rfl⟩
  · cases h
    exact ⟨rfl, rfl, rfl, rfl, rfl⟩

/-- An accepted Event ends up scheduled and registered; otherwise nothing has changed. -/
theorem threadAdd_spec {b : Bool} (h : S.threadAdd i e fuel answers = some (S', b)) :
    (Accepted answers ∧ b = true ∧ (S'.cells (.event e)).state = .scheduled ∧
      ∃ t ∈ S'.threads, t.epoll (S'.fd e) = some ⟨e, S'.ion e⟩) ∨
    ¬ Accepted answers ∧ b = false ∧ S' = S := by
  obtain ⟨t, ht, h⟩ := Option.bind_eq_some_iff.mp h
  split_ifs at h with hassert
  obtain ⟨r, hr, h⟩ := Option.bind_eq_some_iff.mp h
  rcases tryOp_accepted hr with ⟨hacc, set, rfl, hset⟩ | ⟨hacc, rfl⟩
  · obtain ⟨⟨S₁, t₁⟩, harm, h⟩ := Option.map_eq_some_iff.mp h
    cases h
    obtain ⟨hfd, hion, hth, hep, -⟩ := armTimer_frame harm
    refine .inl ⟨hacc, rfl, by simp [setCell], t₁.record, ?_, ?_⟩
    · have hi : i < S₁.threads.length := hth ▸ (List.getElem?_eq_some_iff.mp ht).1
      exact List.mem_set hi _
    · simpa [setCell, Worker.record, hfd, hion, hep] using hset
  · cases h
    exact .inr ⟨hacc, rfl, rfl⟩

theorem awaitSuspend_settled_iff (h : S.awaitSuspend e coroutine fuel answers = some S') :
    Settled S S' e coroutine ↔ Accepted answers := by
  simp only [awaitSuspend, schedule] at h
  split_ifs at h with hst hi
  obtain ⟨⟨S₁, b⟩, hadd, rfl⟩ := Option.map_eq_some_iff.mp h
  rcases threadAdd_spec hadd with ⟨hacc, -, hs, t, ht, hent⟩ | ⟨hacc, -, rfl⟩
  · exact iff_of_true (.inl ⟨hs, t, ht, .inl hent⟩) hacc
  · refine iff_of_false ?_ hacc
    rintro (⟨hs, -⟩ | ⟨hq, -⟩)
    · simp [setCell, hst] at hs
    · exact Nat.lt_irrefl _ hq

/-- The step model of one thread shows the same objects, epoll set and timers. -/
structure Shows (S : Scheduler) (t : Worker) (s : Sys) : Prop where
  cells : s.cells = S.cells
  fd : s.fd = S.fd
  ion : s.ion = S.ion
  epoll : s.epoll = t.epoll
  timers : s.timers = t.timers

variable {s : Sys} {n : ℕ}

/-- One call of `epoll_ctl` in the step model. -/
theorem ctl_next {op : CtlOp} {ans : CtlAnswer} {set : Int → Option Entry} (hshow : S.Shows t s)
    (hpc : s.pc (.thread n) = .adding (.event e) (.ctl op))
    (hassert : ¬ ((S.cells (.event e)).state = .scheduled ∨ S.fd e = -1 ∨
      (S.cells (.event e)).coro = none))
    (hset : epollCtl t.epoll op (S.fd e) ⟨e, S.ion e⟩ ans = some set) :
    system.next s (.add n 0 ans) = match ans with
      | .ok => some ({ s with epoll := set }.goto (.thread n)
          (.adding (.event e) (if 0 < (s.cells (.event e)).dd then .target else .store)))
      | .exist => some (s.goto (.thread n) (.adding (.event e) (.ctl .mod)))
      | .fail => some ((s.goto (.thread n) .idle).setCo (.event e) .suspended) := by
  rw [← hshow.cells, ← hshow.fd] at hassert
  rw [← hshow.epoll, ← hshow.fd, ← hshow.ion] at hset
  simp only [system, next, addStep, hpc, addCtl, if_neg fun h : op = .add ∧ _ => hassert h.2, hset]
  cases ans <;> rfl

/-- The calls of `epoll_ctl` in the step model. -/
theorem tryOp_leads {op : CtlOp} {r : Option (Int → Option Entry)} (hshow : S.Shows t s)
    (hpc : s.pc (.thread n) = .adding (.event e) (.ctl op))
    (hassert : ¬ ((S.cells (.event e)).state = .scheduled ∨ S.fd e = -1 ∨
      (S.cells (.event e)).coro = none))
    (h : tryOp t.epoll (S.fd e) ⟨e, S.ion e⟩ op answers = some r) :
    ∃ s', system.Leads s s' ∧
      (∀ set, r = some set → S.Shows { t with epoll := set } s' ∧ s'.pc (.thread n) =
        .adding (.event e) (if 0 < (S.cells (.event e)).dd then .target else .store)) ∧
      (r = none → S.Shows t s' ∧ s'.pc (.thread n) = .idle ∧ s'.co (.event e) = .suspended) := by
  induction answers generalizing op s with
  | nil => cases h
  | cons ans rest ih =>
    cases ans with
    | ok =>
      obtain ⟨set, hset, rfl⟩ := Option.map_eq_some_iff.mp h
      refine ⟨_, .head trivial (ctl_next hshow hpc hassert hset) (.refl _), ?_, by simp⟩
      rintro _ ⟨⟩
      exact ⟨⟨hshow.cells, hshow.fd, hshow.ion, rfl, hshow.timers⟩, by simp [hshow.cells]⟩
    | exist =>
      obtain ⟨set, hset, h⟩ := Option.bind_eq_some_iff.mp h
      obtain ⟨s', hs', hr⟩ := ih (s := s.goto (.thread n) (.adding (.event e) (.ctl .mod)))
        ⟨hshow.cells, hshow.fd, hshow.ion, hshow.epoll, hshow.timers⟩ (Function.update_self ..) h
      exact ⟨s', .head trivial (ctl_next hshow hpc hassert hset) hs', hr⟩
    | fail =>
      obtain ⟨set, hset, rfl⟩ := Option.map_eq_some_iff.mp h
      refine ⟨_, .head trivial (ctl_next hshow hpc hassert hset) (.refl _), by simp, fun _ => ?_⟩
      exact ⟨⟨hshow.cells, hshow.fd, hshow.ion, hshow.epoll, hshow.timers⟩, by simp, by simp⟩

/-- `addTimer` in the step model. -/
theorem arm_leads (hshow : S.Shows t s) (hpc : s.pc (.thread n) =
      .adding (.event e) (if 0 < (S.cells (.event e)).dd then .target else .store))
    (h : S.armTimer t e fuel = some (S', t')) :
    ∃ s', system.Leads s s' ∧ S'.Shows t' s' ∧ s'.pc (.thread n) = .adding (.event e) .store := by
  simp only [armTimer] at h
  split_ifs at h hpc with hdd
  · obtain ⟨it, hit, h⟩ := Option.map_eq_some_iff.mp h
    cases h
    obtain ⟨hcells, hfd, hion, hep, htm⟩ := hshow
    have h1 : system.next s (.add n fuel .ok) = some (addTarget s n (.event e)) := by
      simp [system, next, addStep, hpc]
    have hcells' : (addTarget s n (.event e)).cells = (S.setCell (.event e)
        { S.cells (.event e) with target := some (.event e) }).cells := by
      rw [setCell, ← hcells]
      rfl
    have hlink : addTimer (addTarget s n (.event e)) (.event e) fuel =
        some (millListInsert t.timers (.event e) it) := by
      have htm' : (addTarget s n (.event e)).timers = t.timers := htm
      rw [addTimer, hcells', htm', hit, Option.map_some]
    have h2 : system.next (addTarget s n (.event e)) (.add n fuel .ok) =
        addLink (addTarget s n (.event e)) n (.event e) fuel := by
      simp [system, next, addStep, addTarget]
    rw [addLink, hlink] at h2
    exact ⟨_, .head trivial h1 (.head trivial h2 (.refl _)), ⟨hcells', hfd, hion, hep, rfl⟩, by simp [linkedPc]⟩
  · cases h
    exact ⟨s, .refl s, hshow, hpc⟩

theorem threadAdd_leads {b : Bool} {fuel : ℕ} (ht : S.threads[i]? = some t) (hshow : S.Shows t s)
    (hpc : s.pc (.thread n) = .adding (.event e) (.ctl .add))
    (h : S.threadAdd i e fuel answers = some (S', b)) :
    ∃ t' s', S'.threads[i]? = some t' ∧ system.Leads s s' ∧ S'.Shows t' s' ∧
      s'.pc (.thread n) = .idle ∧ s'.co (.event e) = .suspended := by
  obtain ⟨_, ht', h⟩ := Option.bind_eq_some_iff.mp h
  cases ht.symm.trans ht'
  split_ifs at h with hassert
  obtain ⟨r, hr, h⟩ := Option.bind_eq_some_iff.mp h
  obtain ⟨s₁, hs₁, hok, hfail⟩ := tryOp_leads hshow hpc hassert hr
  cases r with
  | none =>
    cases h
    exact ⟨t, s₁, ht, hs₁, hfail rfl⟩
  | some set =>
    obtain ⟨⟨S₂, t₂⟩, harm, h⟩ := Option.map_eq_some_iff.mp h
    cases h
    obtain ⟨s₂, hs₂, hshow₂, hpc₂⟩ := arm_leads (hok set rfl).1 (hok set rfl).2 harm
    have h3 : system.next s₂ (.add n 0 .ok) = some (addStore s₂ n (.event e)) := by
      simp [system, next, addStep, hpc₂]
    have hth := (armTimer_frame harm).2.2.1
    have hi := (List.getElem?_eq_some_iff.mp ht).1
    refine ⟨t₂.record, _, by simp [hth, hi], (hs₁.trans hs₂).trans (.head trivial h3 (.refl _)),
      ⟨?_, hshow₂.fd, hshow₂.ion, hshow₂.epoll, hshow₂.timers⟩, by simp [addStore, storedPc],
      by simp [addStore]⟩
    rw [setCell, ← hshow₂.cells]
    rfl

/-- Every call of `await_suspend` is a run of the step model of the thread it goes to,
which leaves the coroutine suspended. -/
theorem awaitSuspend_leads {fuel : ℕ}
    (ht : S.threads[(S.tid e).getD (minLoadSchedule S.threads)]? = some t) (hshow : S.Shows t s)
    (hpc : s.pc (.thread n) = .idle) (hco : s.co (.event e) = .outside)
    (h : S.awaitSuspend e coroutine fuel answers = some S') :
    ∃ t' s', S'.threads[(S.tid e).getD (minLoadSchedule S.threads)]? = some t' ∧
      system.Leads s s' ∧ S'.Shows t' s' ∧ s'.pc (.thread n) = .idle ∧
      s'.co (.event e) = .suspended := by
  simp only [awaitSuspend, schedule] at h
  split_ifs at h with hst hi
  obtain ⟨⟨S₁, b⟩, hadd, rfl⟩ := Option.map_eq_some_iff.mp h
  have hst' : (s.cells (.event e)).state = .created := by rw [hshow.cells, hst]
  have h0 : system.next s (.await n (.event e) coroutine) = some ((((s.setCell (.event e)
      { s.cells (.event e) with coro := some coroutine }).setCo (.event e) (.suspending n)).setWaits
      (.event e) (.fresh :: s.waits (.event e))).goto (.thread n) (.adding (.event e) (.ctl .add))) := by
    simp [system, next, await, hpc, hco, hst', firstStage]
  obtain ⟨t', s', ht', hs', hshow', hend⟩ := threadAdd_leads ht (n := n)
    (S := S.setCell (.event e) { S.cells (.event e) with coro := some coroutine })
    (s := (((s.setCell (.event e) { s.cells (.event e) with coro := some coroutine }).setCo (.event e)
      (.suspending n)).setWaits (.event e) (.fresh :: s.waits (.event e))).goto (.thread n)
      (.adding (.event e) (.ctl .add)))
    ⟨by rw [setCell, ← hshow.cells]; rfl, hshow.fd, hshow.ion, hshow.epoll, hshow.timers⟩
    (Function.update_self ..) hadd
  exact ⟨t', s', ht', .head trivial h0 hs', ⟨hshow'.cells, hshow'.fd, hshow'.ion, hshow'.epoll,
    hshow'.timers⟩, hend⟩

/-- No `epoll_ctl` of `add` ends in an error other than `EEXIST`. -/
def CtlSucceeds (s : Sys) : Act → Prop
  | .add t _ .fail => ∀ e op, s.pc (.thread t) ≠ .adding (.event e) (.ctl op)
  | _ => True

/-- A coroutine is suspended on an Event that is still `created` and that nothing can wake. -/
def Stranded (s : Sys) (e : ℕ) : Prop :=
  s.co (.event e) = .suspended ∧ (s.cells (.event e)).state = .created ∧
    (∀ m, s.epoll (s.fd e) ≠ some ⟨e, m⟩) ∧ ¬ s.timers.Reaches (.event e)

theorem suspended_inductive : system.Inductive CtlSucceeds fun s =>
    ∀ w, s.co w = .suspended → (s.cells w).state ≠ .created where
  init := by
    rintro _ ⟨fd, ion, dd, rfl⟩ w hco
    simp [Sys.start] at hco
  step s act s' hs hok h w := by
    have hw := hs w
    cases next_step h with
    | ctlFail hpc => exact absurd hpc (hok _ _)
    | _ =>
      simp [Function.update_apply, addTarget, addStore, win, resetTimer, Thread.resume]
      grind [expiredState_ne]

/-- `await_suspend` leaves a coroutine that can be woken exactly when the last `epoll_ctl`
answers 0, and without other answers no coroutine is ever stranded. -/
theorem await_suspend_strands (S : Scheduler) (e coroutine fuel : ℕ) (answers : List CtlAnswer) :
    (∀ S', S.awaitSuspend e coroutine fuel answers = some S' →
      (Settled S S' e coroutine ↔ Accepted answers)) ∧
    ∀ s, system.ReachableBy CtlSucceeds s → ¬ Stranded s e := by
  constructor
  · intro S' h
    exact awaitSuspend_settled_iff h
  · intro s hs hstr
    exact suspended_inductive.holds hs _ hstr.1 hstr.2.1

/-- One thread and one Event of descriptor 5, without a deadline. -/
def oneThread : Scheduler where
  cells _ := ⟨.created, none, 0, none⟩
  fd _ := 5
  ion _ := .IN
  tid _ := none
  threads := [⟨fun _ => none, .empty, [], 0, 0, 0⟩]
  totalScheduled := 0

/-- A test that is enough for `CtlSucceeds`. -/
def failsNowhere : Act → Bool
  | .add _ _ .fail => false
  | _ => true

theorem ctlSucceeds_of_failsNowhere (s : Sys) (act : Act) (h : failsNowhere act = true) :
    CtlSucceeds s act := by
  cases act with
  | add t fuel ans => cases ans <;> trivial
  | _ => trivial

theorem await_suspend_strands_oneThread :
    (∃ S', oneThread.awaitSuspend 0 7 1 [.ok] = some S' ∧
      (Settled oneThread S' 0 7 ↔ Accepted [.ok])) ∧
    ∃ s, system.ReachableBy CtlSucceeds s ∧ s.co (.event 0) = .suspended ∧ ¬ Stranded s 0 := by
  have hall := await_suspend_strands oneThread 0 7 1 [.ok]
  refine ⟨⟨_, rfl, hall.1 _ rfl⟩, ?_⟩
  obtain ⟨s, hs, hp⟩ := system.exists_reachableBy_of_runIf (fun _ => failsNowhere)
    [.await 0 (.event 0) 7, .add 0 0 .ok, .add 0 0 .ok] (fun s => s.co (.event 0) = .suspended)
    ctlSucceeds_of_failsNowhere ⟨fun _ => 5, fun _ => .IN, fun _ => 0, rfl⟩ (by decide)
  exact ⟨s, hs, of_decide_eq_true hp, hall.2 s hs⟩

/-- `epoll_ctl` refuses the descriptor, as it does for a regular file. -/
theorem failed_add_strands :
    (¬ ∀ (S S' : Scheduler) (e coroutine fuel : ℕ) (answers : List CtlAnswer),
      S.awaitSuspend e coroutine fuel answers = some S' → Settled S S' e coroutine) ∧
    ¬ ∀ s, system.Reachable s → ∀ e, ¬ Stranded s e := by
  constructor
  · intro h
    rcases h oneThread _ 0 7 0 [.fail] rfl with ⟨hs, -⟩ | ⟨hq, -⟩
    · cases hs
    · exact Nat.lt_irrefl _ hq
  · intro h
    obtain ⟨s, hs, hp⟩ := system.exists_reachable_of_run [.await 0 (.event 0) 7, .add 0 0 .fail]
      (fun s => s.co (.event 0) = .suspended && (s.cells (.event 0)).state = .created &&
        s.epoll (s.fd 0) = none && s.timers.first = none)
      ⟨fun _ => 5, fun _ => .IN, fun _ => 0, rfl⟩ (by decide)
    simp only [Bool.and_eq_true, decide_eq_true_eq] at hp
    exact h s hs 0 ⟨hp.1.1.1, hp.1.1.2, by simp [hp.1.2], Links.not_reaches_of_first hp.2⟩

end Scheduler
end Suil.Async
