import Suil.Async.Wakeup
import Suil.Lib.Progress
import Mathlib.Algebra.BigOperators.Group.Finset.Basic
import Mathlib.Algebra.Order.BigOperators.Group.Finset

/-! The end of a thread: once `abort` has cleared `_active`, the calls under way and the loop
come to their ends in a bounded number of steps, in whatever order they take them. -/
namespace Suil.Async.Wakeup
open Transition

/-- Nothing is called any more. -/
def Closing (s : State) (a : Act) : Prop := SignalKept s a ∧ ∀ p c, a ≠ .call p c

/-- No call and no loop goes on, and `epoll_wait` has no reason to return. -/
structure Stuck (s : State) : Prop where
  producers : ∀ p, next s (.run p) = none
  loop : ∀ now, next s (.loop now) = none
  wake : next s (.wake [.evfd]) = none

/-- How many steps the loop has before it when `_active` is false, but for its timers. -/
def LoopPc.rank : LoopPc → ℕ
  | .exited => 0
  | .test | .woken _ => 1
  | .epollWait _ | .expireTest | .expire _ => 2
  | .compute | .eventTest _ => 3
  | .drainTest _ | .event _ _ => 4
  | .drain _ => 5

/-- A timer that is inserted may take the loop one step more. -/
def ProducerPc.rank : ProducerPc → ℕ
  | .returned => 0
  | .join => 1
  | .clear _ => 2
  | .write _ => 3
  | .compareExchange _ => 4
  | .deactivate | .enqueue _ => 5
  | .insert _ => 6

/-- The steps that are left, where only the first `count` producers are in calls. -/
def rank (count : ℕ) (s : State) : ℕ :=
  s.loop.rank + s.timers.length + ∑ p ∈ Finset.range count, (s.producers p).rank

/-- `_active` is false, and only the first `count` producers may be in a call. -/
structure Ending (count : ℕ) (s : State) : Prop where
  inactive : s.active = false
  returned : ∀ p ≥ count, s.producers p = .returned

section Ranks
variable {s t : State} {count p : ℕ} {pc : ProducerPc} {k : After}

theorem After.rank_pc (k : After) : k.pc.rank ≤ 1 := by
  cases k with
  | ret => exact Nat.zero_le 1
  | join => exact le_refl 1

theorem sum_goto (s : State) (pc : ProducerPc) (hp : p < count) :
    ∑ q ∈ Finset.range count, ((s.goto p pc).producers q).rank + (s.producers p).rank =
      ∑ q ∈ Finset.range count, (s.producers q).rank + pc.rank := by
  have hmem := Finset.mem_range.mpr hp
  rw [← Finset.add_sum_erase _ _ hmem, ← Finset.add_sum_erase _ (fun q => (s.producers q).rank) hmem]
  have hothers : ∑ q ∈ (Finset.range count).erase p, ((s.goto p pc).producers q).rank =
      ∑ q ∈ (Finset.range count).erase p, (s.producers q).rank :=
    Finset.sum_congr rfl fun q hq => by rw [goto_producers, if_neg (Finset.ne_of_mem_erase hq)]
  rw [hothers, goto_producers, if_pos rfl]
  omega

theorem Ending.goto (h : Ending count s) (hp : p < count) (hactive : t.active = false)
    (hproducers : t.producers = (s.goto p pc).producers) : Ending count t where
  inactive := hactive
  returned q hq := by
    rw [hproducers, goto_producers, if_neg (by omega)]
    exact h.returned q hq

/-- A call that takes a step is one of the first. -/
theorem Ending.lt_count (h : Ending count s) (hp : s.producers p ≠ .returned) : p < count :=
  not_le.mp fun hle => hp (h.returned p hle)

end Ranks

/-- What `epoll_wait` has reported and the loop has not come to. -/
def LoopPc.ahead : LoopPc → List Ready
  | .woken ready | .drainTest ready | .drain ready | .eventTest ready => ready
  | .event r rest => r :: rest
  | _ => []

/-- The loop reads the eventfd once, and only where there is something to read. -/
structure Reported (s : State) : Prop where
  evfd : .evfd ∈ s.loop.ahead → s.evfd ≠ 0
  once : s.loop.ahead.count .evfd ≤ 1

section Reports
variable {s t : State} {p : ℕ} {now : Int}

theorem Reported.of_sublist (h : Reported s) (hsub : t.loop.ahead.Sublist s.loop.ahead)
    (hevfd : s.evfd ≤ t.evfd) : Reported t where
  evfd hmem := by
    have hne := h.evfd (hsub.subset hmem)
    omega
  once := le_trans (hsub.count_le .evfd) h.once

theorem Reported.producer (h : Reported s) (hn : runProducer s p = some t) : Reported t := by
  unfold runProducer at hn
  split at hn
  case h_1 => cases hn
  case h_2 | h_3 | h_4 | h_7 =>
    cases hn
    exact h.of_sublist (List.Sublist.refl _) (le_refl _)
  case h_5 =>
    split_ifs at hn
    · cases hn
      exact h.of_sublist (List.Sublist.refl _) (le_refl _)
    · cases hn
      exact h.of_sublist (List.Sublist.refl _) (le_refl _)
  case h_6 =>
    cases hn
    exact h.of_sublist (List.Sublist.refl _) (Nat.le_succ _)
  case h_8 =>
    split_ifs at hn
    cases hn
    exact h.of_sublist (List.Sublist.refl _) (le_refl _)

theorem Reported.loop (h : Reported s) (hn : runLoop s now = some t) : Reported t := by
  unfold runLoop at hn
  split at hn
  case h_1 hl | h_4 hl | h_5 hl | h_8 hl | h_12 hl =>
    cases hn
    refine h.of_sublist ?_ (le_refl _)
    rw [hl]
    cases s.active <;> simp [LoopPc.ahead]
  case h_2 hl | h_7 hl | h_10 hl | h_11 hl =>
    cases hn
    refine h.of_sublist ?_ (le_refl _)
    rw [hl]
    simp [LoopPc.ahead]
  case h_3 | h_14 => cases hn
  case h_6 hl =>
    split at hn
    · cases hn
      exact h.of_sublist (by rw [hl]; simp [LoopPc.ahead]) (le_refl _)
    · cases hn
      exact h.of_sublist (by rw [hl]; simp [LoopPc.ahead]) (le_refl _)
  case h_9 rest hl =>
    split_ifs at hn
    cases hn
    have hnone : rest.count .evfd = 0 := by
      have honce := h.once
      rw [hl] at honce
      simp only [LoopPc.ahead, List.count_cons_self] at honce
      omega
    exact ⟨fun hmem => absurd hmem (List.count_eq_zero.mp hnone), hnone.trans_le (Nat.zero_le 1)⟩
  case h_13 hl =>
    split at hn
    · cases hn
      exact h.of_sublist (by rw [hl]; simp [LoopPc.ahead]) (le_refl _)
    · split_ifs at hn
      · cases hn
        exact h.of_sublist (by rw [hl]; simp [LoopPc.ahead]) (le_refl _)
      · cases hn
        exact h.of_sublist (by rw [hl]) (le_refl _)

theorem Reported.wake {ready : List Ready} (hn : next s (.wake ready) = some t) : Reported t := by
  simp only [next, Wakeup.wake] at hn
  split at hn
  · split_ifs at hn with hready
    cases hn
    exact ⟨hready.1, hready.2.1⟩
  · cases hn

theorem reported_inductive : system.Inductive SignalKept Reported where
  init := by
    rintro s rfl
    exact ⟨nofun, Nat.zero_le 1⟩
  step s a t h _ hn := by
    cases a with
    | call p c =>
      simp only [system, next, Option.ite_none_right_eq_some, Option.some.injEq] at hn
      obtain ⟨-, rfl⟩ := hn
      exact h.of_sublist (List.Sublist.refl _) (le_refl _)
    | run p => exact h.producer hn
    | spurious p =>
      obtain ⟨k, -, rfl⟩ := spurious_cases hn
      exact h.of_sublist (List.Sublist.refl _) (le_refl _)
    | wake ready => exact Reported.wake hn
    | loop now => exact h.loop hn

end Reports

section Countdown
variable {s t : State} {count p : ℕ} {now : Int}

theorem length_addTimer (tm : Timer) (l : List Timer) : (addTimer tm l).length = l.length + 1 :=
  List.orderedInsert_length _ l tm

/-- A producer's step leaves fewer, and the loop where it was. -/
theorem runProducer_spec (hn : runProducer s p = some t) : s.producers p ≠ .returned ∧
    (s.active = false → t.active = false) ∧ t.loop = s.loop ∧
    ∃ pc, t.producers = (s.goto p pc).producers ∧
      t.timers.length + pc.rank < s.timers.length + (s.producers p).rank := by
  unfold runProducer at hn
  split at hn
  case h_1 => cases hn
  case h_2 _ hpc =>
    cases hn
    rw [hpc]
    exact ⟨nofun, id, rfl, .compareExchange .ret, rfl, Nat.lt_succ_self _⟩
  case h_3 tm hpc =>
    cases hn
    have hlen : (addTimer tm s.timers).length + 4 < s.timers.length + 6 := by
      rw [length_addTimer]
      omega
    rw [hpc]
    exact ⟨nofun, id, rfl, .compareExchange .ret, rfl, hlen⟩
  case h_4 hpc =>
    cases hn
    rw [hpc]
    exact ⟨nofun, fun _ => rfl, rfl, .compareExchange .join, rfl, Nat.lt_succ_self _⟩
  case h_5 k hpc =>
    have hk := k.rank_pc
    have hlt : s.timers.length + k.pc.rank < s.timers.length + 4 := by omega
    rw [hpc]
    split_ifs at hn
    · cases hn
      exact ⟨nofun, id, rfl, k.pc, rfl, hlt⟩
    · cases hn
      exact ⟨nofun, id, rfl, .write k, rfl, Nat.lt_succ_self _⟩
  case h_6 k hpc =>
    cases hn
    rw [hpc]
    exact ⟨nofun, id, rfl, .clear k, rfl, Nat.lt_succ_self _⟩
  case h_7 k hpc =>
    have hk := k.rank_pc
    cases hn
    rw [hpc]
    exact ⟨nofun, id, rfl, k.pc, rfl, Nat.add_lt_add_left (Nat.lt_succ_of_le hk) _⟩
  case h_8 hpc =>
    split_ifs at hn
    cases hn
    rw [hpc]
    exact ⟨nofun, id, rfl, .returned, rfl, Nat.lt_succ_self _⟩

/-- Without `_active` the loop goes to its exit. -/
theorem runLoop_spec (hactive : s.active = false) (hn : runLoop s now = some t) :
    t.active = false ∧ t.producers = s.producers ∧
      t.loop.rank + t.timers.length < s.loop.rank + s.timers.length := by
  unfold runLoop at hn
  split at hn
  case h_1 hl | h_4 hl | h_5 hl | h_8 hl | h_12 hl =>
    cases hn
    rw [hl]
    simp [hactive, LoopPc.rank]
  case h_2 hl | h_7 hl | h_10 hl =>
    cases hn
    rw [hl]
    simp [hactive, LoopPc.rank]
  case h_3 | h_14 => cases hn
  case h_6 hl =>
    rw [hl]
    split at hn
    · cases hn
      simp [hactive, LoopPc.rank]
    · cases hn
      simp [hactive, LoopPc.rank]
  case h_9 rest hl =>
    rw [hl]
    split_ifs at hn
    cases hn
    simp [hactive, LoopPc.rank]
  case h_11 tm rest hl =>
    cases hn
    have hle : (s.timers.erase tm).length ≤ s.timers.length := List.length_erase_le
    rw [hl]
    refine ⟨hactive, rfl, ?_⟩
    simp only [LoopPc.rank]
    omega
  case h_13 hl =>
    split at hn
    · cases hn
      rw [hl]
      simp [hactive, LoopPc.rank]
    · next it rest htimers =>
      split_ifs at hn
      · cases hn
        rw [hl]
        simp [hactive, LoopPc.rank]
      · cases hn
        rw [htimers]
        simp [hactive]

theorem runLoop_producers (hn : runLoop s now = some t) : t.producers = s.producers := by
  unfold runLoop at hn
  split at hn
  case h_6 | h_13 => split at hn <;> first | (cases hn; rfl) | (split_ifs at hn <;> cases hn <;> rfl)
  case h_9 =>
    split_ifs at hn
    cases hn
    rfl
  all_goals
    cases hn
    try rfl

theorem exists_count_goto {pc : ProducerPc} (ht : t.producers = (s.goto p pc).producers)
    (h : ∃ count, ∀ q ≥ count, s.producers q = .returned) :
    ∃ count, ∀ q ≥ count, t.producers q = .returned := by
  obtain ⟨count, hcount⟩ := h
  refine ⟨max count (p + 1), fun q hq => ?_⟩
  have hne : q ≠ p := by omega
  rw [ht, goto_producers, if_neg hne]
  exact hcount q (by omega)

/-- Only so many producers have ever been in a call. -/
theorem exists_count (hs : system.ReachableBy SignalKept s) :
    ∃ count, ∀ p ≥ count, s.producers p = .returned := by
  induction hs with
  | init h0 => exact ⟨0, fun p _ => by rw [h0]; rfl⟩
  | @step s t a _ _ hn ih =>
    cases a with
    | call p c =>
      simp only [system, next, Option.ite_none_right_eq_some, Option.some.injEq] at hn
      obtain ⟨-, rfl⟩ := hn
      exact exists_count_goto rfl ih
    | run p =>
      obtain ⟨-, -, -, pc, hproducers, -⟩ := runProducer_spec hn
      exact exists_count_goto hproducers ih
    | spurious p =>
      obtain ⟨k, -, rfl⟩ := spurious_cases hn
      exact exists_count_goto rfl ih
    | wake ready =>
      simp only [system, next, wake] at hn
      split at hn
      · split_ifs at hn
        cases hn
        exact ih
      · cases hn
    | loop now => exact runLoop_producers hn ▸ ih

/-- Each step, if it is not a call, leaves fewer. -/
theorem Ending.step {a : Act} (h : Ending count s) (ha : Closing s a) (hn : next s a = some t) :
    Ending count t ∧ rank count t < rank count s := by
  cases a with
  | call p c => exact absurd rfl (ha.2 p c)
  | run p =>
    obtain ⟨hret, hactive, hloop, pc, hproducers, hlt⟩ := runProducer_spec hn
    have hp := h.lt_count hret
    have hsum := sum_goto s pc hp
    refine ⟨h.goto hp (hactive h.inactive) hproducers, ?_⟩
    rw [rank, rank, hloop, hproducers]
    omega
  | spurious p =>
    obtain ⟨k, hpc, rfl⟩ := spurious_cases hn
    have hp := h.lt_count (p := p) (by rw [hpc]; nofun)
    have hsum := sum_goto s k.pc hp
    have hk := k.rank_pc
    have hfour : (s.producers p).rank = 4 := by rw [hpc]; rfl
    refine ⟨h.goto hp h.inactive rfl, ?_⟩
    change s.loop.rank + s.timers.length +
      ∑ q ∈ Finset.range count, ((s.goto p k.pc).producers q).rank < rank count s
    rw [rank]
    omega
  | wake ready =>
    simp only [next, wake] at hn
    split at hn
    · next hl =>
      split_ifs at hn
      cases hn
      refine ⟨⟨h.inactive, h.returned⟩, ?_⟩
      simp only [rank, hl, LoopPc.rank]
      omega
    · cases hn
  | loop now =>
    obtain ⟨hactive, hproducers, hlt⟩ := runLoop_spec h.inactive hn
    refine ⟨⟨hactive, fun p hp => hproducers ▸ h.returned p hp⟩, ?_⟩
    rw [rank, rank, hproducers]
    omega

theorem Stuck.producer (h : Stuck s) (p : ℕ) :
    s.producers p = .returned ∨ s.producers p = .join ∧ s.loop ≠ .exited := by
  have hnone := h.producers p
  simp only [next, runProducer] at hnone
  split at hnone
  case h_1 hp => exact .inl hp
  case h_5 => split_ifs at hnone
  case h_8 hp =>
    refine .inr ⟨hp, fun hl => ?_⟩
    rw [if_pos hl] at hnone
    cases hnone
  all_goals cases hnone

/-- The loop can be stuck in `epoll_wait` only. -/
theorem Stuck.loop_cases (h : Stuck s) (hreported : Reported s) :
    s.loop = .exited ∨ (∃ timeout, s.loop = .epollWait timeout) ∧ s.evfd = 0 := by
  have hnone := h.loop 0
  simp only [next, runLoop] at hnone
  split at hnone
  case h_3 timeout hl =>
    have hwake := h.wake
    simp only [next, Wakeup.wake, hl] at hwake
    refine .inr ⟨⟨timeout, hl⟩, ?_⟩
    by_contra hne
    rw [if_pos ⟨fun _ => hne, by decide, by decide⟩] at hwake
    cases hwake
  case h_9 rest hl =>
    have hne := hreported.evfd (by rw [hl]; exact List.mem_cons_self)
    rw [if_neg hne] at hnone
    cases hnone
  case h_14 hl => exact .inl hl
  case h_6 => split at hnone <;> cases hnone
  case h_13 => split at hnone <;> first | cases hnone | (split_ifs at hnone)
  all_goals cases hnone

/-- Nothing that is stuck is left behind. -/
theorem Stuck.returned (hs : system.ReachableBy SignalKept s) (hactive : s.active = false)
    (h : Stuck s) : s.loop = .exited ∧ ∀ p, s.producers p = .returned := by
  have hexited : s.loop = .exited := by
    cases h.loop_cases (reported_inductive.holds hs) with
    | inl hl => exact hl
    | inr hwait =>
      have hproducers (p : ℕ) : s.producers p = .returned ∨ s.producers p = .join :=
        (h.producer p).imp_right And.left
      have hseen := nothing_missed hs hwait.1 hwait.2 hproducers
      rw [hactive] at hseen
      exact absurd hseen.2.1 nofun
  refine ⟨hexited, fun p => ?_⟩
  cases h.producer p with
  | inl hp => exact hp
  | inr hp => exact absurd hexited hp.2

/-- After `abort` has cleared `_active`, what is under way ends within a bounded number of steps,
and `abort` returns with the loop gone. -/
theorem abort_comes_back (hs : system.ReachableBy SignalKept s) (hactive : s.active = false) :
    ∃ bound, ∀ n t, system.Steps Closing n s t → n ≤ bound ∧
      (Stuck t → t.loop = .exited ∧ ∀ p, t.producers p = .returned) := by
  obtain ⟨count, hcount⟩ := exists_count hs
  have hending : Ending count s := ⟨hactive, hcount⟩
  refine ⟨rank count s, fun n t hsteps => ?_⟩
  obtain ⟨ht, hle⟩ := hsteps.le_rank (fun _ _ _ h ha hn => h.step ha hn) hending
  have hreachable := hsteps.reachableBy (fun _ _ h => h.1) hs
  exact ⟨by omega, fun hstuck => hstuck.returned hreachable ht.inactive⟩

/-- `abort` while the loop waits. -/
theorem abort_comes_back_waiting : ∃ s, system.ReachableBy SignalKept s ∧ s.active = false ∧
    ∃ bound, ∀ n t, system.Steps Closing n s t → n ≤ bound ∧
      (Stuck t → t.loop = .exited ∧ ∀ p, t.producers p = .returned) := by
  obtain ⟨s, hs, hw⟩ := system.exists_reachableBy_of_runIf keepsSignal
    [.loop 0, .loop 0, .call 0 .abort, .run 0] (fun s => !s.active) signalKept_of_keepsSignal rfl
    (by decide)
  have hactive : s.active = false := by simpa using hw
  exact ⟨s, hs, hactive, abort_comes_back hs hactive⟩

end Countdown

end Suil.Async.Wakeup
