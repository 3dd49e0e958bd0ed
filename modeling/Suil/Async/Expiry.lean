import Suil.Async.TimerList
import Suil.Async.Steps

/-! `fireExpiredTimers` on one thread. A coroutine that it resumes may add and cancel timers
before it returns to the loop. -/
namespace Suil.Async.Thread
open Transition DoublyLinked Links StableSort

/-- A timer that the loop has popped: whether its target was scheduled when the compare-exchange
ran, whether this one failed spuriously, and how often the coroutine was resumed for it. -/
structure Fire where
  it : Waiter
  scheduled : Bool
  spurious : Bool
  resumes : ℕ

/-- A call that has read the time `tp`. A resumed coroutine runs while `inside` is set. `log` is a
ghost. -/
structure Firing where
  run : Run
  tp : Int
  inside : Bool
  log : List Fire

inductive FireStep
  | pop
  | expire (spurious : Bool)
  | finish
  | edit (e : Edit)
  | back

namespace Firing

/-- The timers that stay in the list. -/
def left (order : List Waiter) : Pc → List Waiter
  | .popped w => order.filter (· ≠ w)
  | _ => order

/-- The compare-exchange meets the state `scheduled`. -/
def meets (s : Sys) (it : Waiter) : Bool :=
  (s.cells it).target.any fun w => (s.cells w).state = .scheduled

def resumed (log : List Fire) : List Fire :=
  log.dropLast ++ log.getLast?.toList.map fun f => { f with resumes := f.resumes + 1 }

def next (s : Firing) : FireStep → Option Firing
  | .pop =>
    if s.inside then none
    else (popExpired s.run.sys).map fun sys =>
      { s with run := ⟨sys, left s.run.order (sys.pc .loop)⟩ }
  | .expire spurious =>
    match s.run.sys.pc .loop with
    | .popped it => (expire s.run.sys spurious).map fun sys =>
      { s with
        run := { s.run with sys := sys }
        log := s.log ++ [⟨it, meets s.run.sys it, spurious, 0⟩] }
    | _ => none
  | .finish =>
    match s.run.sys.pc .loop with
    | .finishing _ _ .resume => (finish s.run.sys .loop).map fun sys =>
      { s with run := { s.run with sys := sys }, inside := true, log := resumed s.log }
    | _ => (finish s.run.sys .loop).map fun sys => { s with run := { s.run with sys := sys } }
  | .edit e => if s.inside then (s.run.edit e).map fun run => { s with run := run } else none
  | .back => if s.inside then some { s with inside := false } else none

/-- The call begins with any sorted list, at any time. -/
structure Begins (s : Firing) : Prop where
  listed : s.run.Listed
  mode : s.run.sys.mode = .expiring s.tp
  idle : s.run.sys.pc .loop = .idle
  outside : s.inside = false
  log : s.log = []

end Firing

def firing : System Firing FireStep where
  init := Firing.Begins
  next := Firing.next

namespace Firing

/-- What a popped timer is due to. -/
def Settled (f : Fire) : Prop := f.resumes = if f.scheduled ∧ ¬ f.spurious then 1 else 0

/-- What the counter of the loop says about the timers popped so far. -/
def Stands (s : Firing) : Pc → Prop
  | .idle => ∀ f ∈ s.log, Settled f
  | .popped w => s.inside = false ∧ w ∉ s.run.order ∧ (s.run.sys.cells w).target = some w ∧
      ∀ f ∈ s.log, Settled f
  | .finishing w p st => s.inside = false ∧ p = .timer ∧ (st = .del ∨ st = .resume) ∧
      ∃ log, s.log = log ++ [⟨w, true, false, 0⟩] ∧ ∀ f ∈ log, Settled f
  | _ => False

/-- The invariant of the loop. -/
structure Loop (s : Firing) : Prop where
  listed : s.run.Listed
  stands : s.Stands (s.run.sys.pc .loop)
  mode : s.run.sys.mode = .expiring s.tp ∨ s.run.sys.mode = .polling ∧
    s.run.sys.pc .loop = .idle ∧ s.inside = false ∧ ∀ w ∈ s.run.order, s.tp < s.run.deadline w

end Firing

theorem popExpired_cases {s s' : Sys} (h : popExpired s = some s') :
    ∃ tp, s.mode = .expiring tp ∧ s.pc .loop = .idle ∧
      ((s' = { s with mode := .polling } ∧ ∀ w, s.timers.first = some w → tp < (s.cells w).dd) ∨
        ∃ w, s.timers.first = some w ∧ (s.cells w).dd ≤ tp ∧
          s' = ({ s with timers := (millListErase s.timers w).1 }.setPending w false).goto .loop
            (.popped w)) := by
  unfold popExpired at h
  cases hmode : s.mode with
  | expiring tp =>
    rw [hmode] at h
    dsimp only at h
    split_ifs at h with hpc
    refine ⟨tp, rfl, hpc, ?_⟩
    cases hfirst : s.timers.first with
    | none =>
      rw [hfirst] at h
      exact .inl ⟨(Option.some.inj h).symm, fun w hw => absurd hw.symm (Option.some_ne_none w)⟩
    | some w =>
      rw [hfirst] at h
      dsimp only at h
      split_ifs at h with hdd
      · refine .inl ⟨(Option.some.inj h).symm, fun v hv => ?_⟩
        rwa [← Option.some.inj hv]
      · exact .inr ⟨w, rfl, Int.not_lt.mp hdd, (Option.some.inj h).symm⟩
  | polling | dispatching =>
    rw [hmode] at h
    cases h

theorem goto_self (s : Sys) (a : Agent) (pc : Pc) : (s.goto a pc).pc a = pc :=
  Function.update_self _ _ _

/-- Edits leave the loop where it is. -/
theorem edit_frame {s t : Run} {e : Edit} (h : s.edit e = some t) :
    t.sys.pc = s.sys.pc ∧ t.sys.mode = s.sys.mode := by
  cases Run.edited h with
  | set | reset | add => exact ⟨rfl, rfl⟩
  | cancel =>
    unfold cancelTimer
    split_ifs
    · exact ⟨rfl, rfl⟩
    · exact ⟨rfl, rfl⟩

namespace Firing
variable {s t : Firing} {w : Waiter}

theorem pop_next (hn : s.next .pop = some t) : s.inside = false ∧ ∃ sys,
    popExpired s.run.sys = some sys ∧
      t = { s with run := ⟨sys, left s.run.order (sys.pc .loop)⟩ } := by
  rw [next] at hn
  split_ifs at hn with hinside
  obtain ⟨sys, hpop, rfl⟩ := Option.map_eq_some_iff.mp hn
  exact ⟨Bool.not_eq_true _ ▸ hinside, sys, hpop, rfl⟩

theorem expire_next {spurious : Bool} (hn : s.next (.expire spurious) = some t) :
    ∃ it sys, s.run.sys.pc .loop = .popped it ∧ Thread.expire s.run.sys spurious = some sys ∧
      t = { s with
        run := { s.run with sys := sys }
        log := s.log ++ [⟨it, meets s.run.sys it, spurious, 0⟩] } := by
  rw [next] at hn
  split at hn
  · next it hpc =>
    obtain ⟨sys, hexpire, rfl⟩ := Option.map_eq_some_iff.mp hn
    exact ⟨it, sys, hpc, hexpire, rfl⟩
  · cases hn

theorem finish_next (hn : s.next .finish = some t) : ∃ sys,
    Thread.finish s.run.sys .loop = some sys ∧ t.run = ⟨sys, s.run.order⟩ ∧
      (t.log = s.log ∨ t.log = resumed s.log) := by
  rw [next] at hn
  split at hn
  · obtain ⟨sys, hfinish, rfl⟩ := Option.map_eq_some_iff.mp hn
    exact ⟨sys, hfinish, rfl, .inr rfl⟩
  · obtain ⟨sys, hfinish, rfl⟩ := Option.map_eq_some_iff.mp hn
    exact ⟨sys, hfinish, rfl, .inl rfl⟩

theorem edit_next {e : Edit} (hn : s.next (.edit e) = some t) :
    s.inside = true ∧ ∃ run, s.run.edit e = some run ∧ t = { s with run := run } := by
  rw [next] at hn
  split_ifs at hn with hinside
  obtain ⟨run, hedit, rfl⟩ := Option.map_eq_some_iff.mp hn
  exact ⟨hinside, run, hedit, rfl⟩

theorem back_next (hn : s.next .back = some t) :
    s.inside = true ∧ t = { s with inside := false } := by
  rw [next] at hn
  split_ifs at hn with hinside
  exact ⟨hinside, (Option.some.inj hn).symm⟩

theorem Loop.tp_eq (h : s.Loop) {tp : Int} (hmode : s.run.sys.mode = .expiring tp) : tp = s.tp := by
  rcases h.mode with hm | ⟨hm, -⟩
  · exact Mode.expiring.inj (hmode.symm.trans hm)
  · cases hmode.symm.trans hm

/-- What a turn of the loop does before it unlocks. -/
theorem Loop.pop_cases (h : s.Loop) (hn : s.next .pop = some t) :
    (t = { s with run := ⟨{ s.run.sys with mode := .polling }, s.run.order⟩ } ∧
      ∀ w ∈ s.run.order, s.tp < s.run.deadline w) ∨
    ∃ w, s.run.sys.timers.first = some w ∧ s.run.deadline w ≤ s.tp ∧
      t = { s with run := ⟨({ s.run.sys with
        timers := (millListErase s.run.sys.timers w).1 }.setPending w false).goto .loop (.popped w),
          s.run.order.filter (· ≠ w)⟩ } := by
  obtain ⟨-, sys, hpop, rfl⟩ := pop_next hn
  obtain ⟨tp, hmode, hpc, hcase⟩ := popExpired_cases hpop
  obtain rfl := h.tp_eq hmode
  rcases hcase with ⟨rfl, hlate⟩ | ⟨w, hfirst, hdd, rfl⟩
  · refine .inl ⟨by simp only [hpc, left], fun w hw => ?_⟩
    cases hfirst : s.run.sys.timers.first with
    | none =>
      rw [h.listed.first_eq_none_iff.mp hfirst] at hw
      exact absurd hw List.not_mem_nil
    | some v => exact (hlate v hfirst).trans_le ((h.listed.first_least hfirst).2 w hw)
  · refine .inr ⟨w, hfirst, hdd, ?_⟩
    simp only [Sys.goto_pc, Function.update_self, left]

theorem Loop.outside (h : s.Loop) (hpc : s.run.sys.pc .loop ≠ .idle) : s.inside = false := by
  have hs := h.stands
  cases hp : s.run.sys.pc .loop with
  | idle => exact absurd hp hpc
  | popped w => exact (hp ▸ hs).1
  | finishing w p st => exact (hp ▸ hs).1
  | adding w st | removing w | fired e f => exact absurd hs (by rw [hp]; exact id)

theorem Loop.pop (h : s.Loop) (hn : s.next .pop = some t) : t.Loop := by
  have hidle : s.run.sys.pc .loop = .idle ∧ s.inside = false := by
    obtain ⟨hinside, sys, hpop, -⟩ := pop_next hn
    obtain ⟨tp, -, hpc, -⟩ := popExpired_cases hpop
    exact ⟨hpc, hinside⟩
  have hlog : ∀ f ∈ s.log, Settled f := by
    have hs := h.stands
    rw [hidle.1] at hs
    exact hs
  rcases h.pop_cases hn with ⟨rfl, hlate⟩ | ⟨w, hfirst, -, rfl⟩
  · refine ⟨⟨h.listed.nodup, h.listed.spelled, h.listed.target⟩, ?_, .inr ⟨rfl, hidle.1, hidle.2, hlate⟩⟩
    show Stands _ (s.run.sys.pc .loop)
    rw [hidle.1]
    exact hlog
  · have hw := (h.listed.first_least hfirst).1
    have herase := h.listed.erase hw
    refine ⟨⟨herase.nodup, herase.spelled, herase.target⟩, ?_, ?_⟩
    · rw [goto_self]
      have hout : w ∉ s.run.order.filter (· ≠ w) := fun hm =>
        of_decide_eq_true (List.mem_filter.mp hm).2 rfl
      exact ⟨hidle.2, hout, h.listed.target w hw, hlog⟩
    · rcases h.mode with hm | ⟨hm, -⟩
      · exact .inl hm
      · rw [next, hidle.2, if_neg Bool.false_ne_true, popExpired, hm] at hn
        cases hn

theorem settled_append {log : List Fire} {f : Fire} (h : ∀ f ∈ log, Settled f) (hf : Settled f) :
    ∀ g ∈ log ++ [f], Settled g := by
  intro g hg
  rcases List.mem_append.mp hg with hg | hg
  · exact h g hg
  · rw [List.mem_singleton.mp hg]
    exact hf

/-- The loop goes on while it has a popped timer to deal with. -/
theorem Loop.expiring (h : s.Loop) (hpc : s.run.sys.pc .loop ≠ .idle) :
    s.run.sys.mode = .expiring s.tp := by
  rcases h.mode with hm | ⟨-, hidle, -⟩
  · exact hm
  · exact absurd hidle hpc

theorem Loop.expire {spurious : Bool} (h : s.Loop) (hn : s.next (.expire spurious) = some t) :
    t.Loop := by
  obtain ⟨it, sys, hpc, hexpire, rfl⟩ := expire_next hn
  have hs := h.stands
  rw [hpc] at hs
  obtain ⟨hinside, -, htarget, hlog⟩ := hs
  have hmode := h.expiring (by rw [hpc]; exact Pc.noConfusion)
  have hmeets : meets s.run.sys it = decide ((s.run.sys.cells it).state = .scheduled) := by
    rw [meets, htarget, Option.any_some]
  cases expire_step hexpire with
  | @expireLose it' w _ hpc' htarget' hst =>
    obtain rfl := Pc.popped.inj (hpc.symm.trans hpc')
    obtain rfl := Option.some.inj (htarget.symm.trans htarget')
    refine ⟨h.listed.congr rfl fun v _ => ⟨rfl, rfl⟩, ?_, .inl hmode⟩
    rw [goto_self]
    refine settled_append hlog (if_neg ?_).symm
    rw [hmeets]
    rintro ⟨hsched, hspurious⟩
    exact hst.elim hspurious fun hne => hne (of_decide_eq_true hsched)
  | @expireWin it' w hpc' htarget' hst =>
    obtain rfl := Pc.popped.inj (hpc.symm.trans hpc')
    obtain rfl := Option.some.inj (htarget.symm.trans htarget')
    have hset := h.listed.setState it (expiredState it)
    refine ⟨⟨hset.nodup, hset.spelled, hset.target⟩, ?_, .inl hmode⟩
    rw [goto_self]
    refine ⟨hinside, rfl, ?_, s.log, ?_, hlog⟩
    · cases it with
      | event e => exact .inl rfl
      | delay d => exact .inr rfl
    · rw [hmeets, decide_eq_true hst]

/-- The loop goes on with the object that it has won, or is done with it. -/
theorem finish_cases (hn : s.next .finish = some t) :
    t.run.order = s.run.order ∧ ∃ w p st, s.run.sys.pc .loop = .finishing w p st ∧
      (t.run.sys.pc .loop = .idle ∨ ∃ st', t.run.sys.pc .loop = .finishing w p st') := by
  obtain ⟨sys, hfinish, hrun, -⟩ := finish_next hn
  rw [hrun]
  refine ⟨rfl, ?_⟩
  cases finish_step hfinish with
  | check hpc | cancel hpc | reset hpc | del hpc =>
    exact ⟨_, _, _, hpc, .inr ⟨_, goto_self _ _ _⟩⟩
  | resume hpc hcoro => exact ⟨_, _, _, hpc, .inl (goto_self _ _ _)⟩

theorem resumed_append (log : List Fire) (f : Fire) :
    resumed (log ++ [f]) = log ++ [{ f with resumes := f.resumes + 1 }] := by
  rw [resumed, List.dropLast_concat, List.getLast?_concat]
  rfl

theorem Loop.finish (h : s.Loop) (hn : s.next .finish = some t) : t.Loop := by
  rw [next] at hn
  have hs := h.stands
  cases hpc : s.run.sys.pc .loop with
  | finishing w p st =>
    rw [hpc] at hs
    obtain ⟨hinside, rfl, hst, log, hlog, hsettled⟩ := hs
    have hmode := h.expiring (by rw [hpc]; exact Pc.noConfusion)
    rcases hst with rfl | rfl
    · rw [hpc] at hn
      obtain ⟨sys, hfinish, rfl⟩ := Option.map_eq_some_iff.mp hn
      rw [Thread.finish, hpc] at hfinish
      obtain rfl := Option.some.inj hfinish
      have hdel : (delEntry s.run.sys w).timers = s.run.sys.timers ∧
          (delEntry s.run.sys w).cells = s.run.sys.cells ∧
          (delEntry s.run.sys w).mode = s.run.sys.mode := by
        cases w with
        | event e => exact ⟨rfl, rfl, rfl⟩
        | delay d => exact ⟨rfl, rfl, rfl⟩
      obtain ⟨htimers, hcells, hmode'⟩ := hdel
      refine ⟨h.listed.congr htimers fun v _ => ?_, ?_, .inl (hmode'.trans hmode)⟩
      · show ((delEntry s.run.sys w).cells v).dd = _ ∧ ((delEntry s.run.sys w).cells v).target = _
        rw [hcells]
        exact ⟨rfl, rfl⟩
      · rw [goto_self]
        exact ⟨hinside, rfl, .inr rfl, log, hlog, hsettled⟩
    · rw [hpc] at hn
      obtain ⟨sys, hfinish, rfl⟩ := Option.map_eq_some_iff.mp hn
      rw [Thread.finish, hpc] at hfinish
      dsimp only at hfinish
      split_ifs at hfinish
      obtain rfl := Option.some.inj hfinish
      refine ⟨h.listed.congr rfl fun v _ => ⟨rfl, rfl⟩, ?_, .inl hmode⟩
      rw [goto_self]
      show ∀ f ∈ resumed s.log, Settled f
      rw [hlog, resumed_append]
      exact settled_append hsettled (if_pos ⟨rfl, Bool.false_ne_true⟩).symm
  | idle | adding | removing | fired | popped =>
    rw [hpc] at hn
    obtain ⟨sys, hfinish, -⟩ := Option.map_eq_some_iff.mp hn
    rw [Thread.finish, hpc] at hfinish
    cases hfinish

theorem Loop.edit {e : Edit} (h : s.Loop) (hn : s.next (.edit e) = some t) : t.Loop := by
  obtain ⟨hinside, run, hedit, rfl⟩ := edit_next hn
  obtain ⟨hpc, hmode⟩ := edit_frame hedit
  have hidle : s.run.sys.pc .loop = .idle := by
    by_contra hne
    exact Bool.false_ne_true ((h.outside hne).symm.trans hinside)
  have hs := h.stands
  rw [hidle] at hs
  refine ⟨h.listed.edit hedit, ?_, ?_⟩
  · rw [hpc, hidle]
    exact hs
  · rcases h.mode with hm | ⟨-, -, hout, -⟩
    · exact .inl (hmode.trans hm)
    · exact absurd (hout.symm.trans hinside) Bool.false_ne_true

theorem Loop.back (h : s.Loop) (hn : s.next .back = some t) : t.Loop := by
  obtain ⟨hinside, rfl⟩ := back_next hn
  have hidle : s.run.sys.pc .loop = .idle := by
    by_contra hne
    exact Bool.false_ne_true ((h.outside hne).symm.trans hinside)
  have hs := h.stands
  rw [hidle] at hs
  refine ⟨h.listed, ?_, ?_⟩
  · rw [hidle]
    exact hs
  · rcases h.mode with hm | ⟨-, -, hout, -⟩
    · exact .inl hm
    · exact absurd (hout.symm.trans hinside) Bool.false_ne_true

end Firing

theorem loop_inductive : firing.Inductive (fun _ _ => True) Firing.Loop where
  init s hs := by
    refine ⟨hs.listed, ?_, .inl hs.mode⟩
    rw [hs.idle]
    intro f hf
    rw [hs.log] at hf
    exact absurd hf List.not_mem_nil
  step s a t h _ hn := by
    cases a with
    | pop => exact h.pop hn
    | expire spurious => exact h.expire hn
    | finish => exact h.finish hn
    | edit e => exact h.edit hn
    | back => exact h.back hn

namespace Firing
variable {s t : Firing} {w : Waiter}

/-- The timers that the call has fired, and those that it leaves. -/
structure Correct (s : Firing) : Prop where
  wellFormed : s.run.WellFormed
  pops : ∀ t w, s.next .pop = some t → t.run.sys.pc .loop = .popped w →
    w ∈ s.run.order ∧ s.run.deadline w ≤ s.tp ∧
    (∀ v ∈ s.run.order, s.run.deadline w ≤ s.run.deadline v) ∧
    (s.run.order.filter fun v => s.run.deadline v = s.run.deadline w).head? = some w
  removes : ∀ a t, s.next a = some t → (∀ e, a ≠ .edit e) →
    ∀ v ∈ s.run.order, v ∈ t.run.order ∨ s.run.deadline v ≤ s.tp
  fires : s.run.sys.pc .loop = .idle → ∀ f ∈ s.log, f.resumes = if f.scheduled then 1 else 0
  returned : s.run.sys.mode = .polling → ∀ w ∈ s.run.order, s.tp < s.run.deadline w

/-- The compare-exchange does not fail where it meets the state `scheduled`. -/
def Strong (s : Firing) (a : FireStep) : Prop :=
  a = .expire true → ∀ it, s.run.sys.pc .loop = .popped it → meets s.run.sys it = false

/-- What `Strong` says of the timers popped so far. -/
def NoneLost (s : Firing) : Prop := ∀ f ∈ s.log, f.scheduled → f.spurious = false

theorem Loop.pops (h : s.Loop) (hn : s.next .pop = some t)
    (hpc : t.run.sys.pc .loop = .popped w) :
    w ∈ s.run.order ∧ s.run.deadline w ≤ s.tp ∧
    (∀ v ∈ s.run.order, s.run.deadline w ≤ s.run.deadline v) ∧
    (s.run.order.filter fun v => s.run.deadline v = s.run.deadline w).head? = some w := by
  rcases h.pop_cases hn with ⟨rfl, -⟩ | ⟨v, hfirst, hdd, rfl⟩
  · obtain ⟨-, sys, hpop, -⟩ := pop_next hn
    obtain ⟨tp, -, hidle, -⟩ := popExpired_cases hpop
    cases hidle.symm.trans hpc
  · rw [goto_self] at hpc
    obtain rfl := Pc.popped.inj hpc
    have hhead := hfirst
    rw [h.listed.represents.first] at hhead
    obtain ⟨l, hl⟩ := List.head?_eq_some_iff.mp hhead
    have hsort := s.run.sortOf
    rw [hl] at hsort
    exact ⟨(h.listed.first_least hfirst).1, hdd, hsort.head⟩

/-- The loop itself removes a timer only where it pops one. -/
theorem Loop.removes (h : s.Loop) {a : FireStep} (hn : s.next a = some t) (ha : ∀ e, a ≠ .edit e) :
    ∀ v ∈ s.run.order, v ∈ t.run.order ∨ s.run.deadline v ≤ s.tp := by
  intro v hv
  cases a with
  | pop =>
    rcases h.pop_cases hn with ⟨rfl, -⟩ | ⟨w, hfirst, hdd, rfl⟩
    · exact .inl hv
    · by_cases hvw : v = w
      · rw [hvw]
        exact .inr hdd
      · exact .inl (List.mem_filter.mpr ⟨hv, decide_eq_true hvw⟩)
  | expire spurious =>
    obtain ⟨it, sys, -, -, rfl⟩ := expire_next hn
    exact .inl hv
  | finish =>
    obtain ⟨sys, -, hrun, -⟩ := finish_next hn
    rw [hrun]
    exact .inl hv
  | edit e => exact absurd rfl (ha e)
  | back =>
    obtain ⟨-, rfl⟩ := back_next hn
    exact .inl hv

/-- A timer is owed its resume as long as no compare-exchange has failed for it without need. -/
theorem Loop.correct (h : s.Loop) (hlost : s.NoneLost) : s.Correct where
  wellFormed := h.listed.wellFormed
  pops t w hn hpc := h.pops hn hpc
  removes a t hn ha := h.removes hn ha
  fires hidle f hf := by
    have hs := h.stands
    rw [hidle] at hs
    have hsettled : Settled f := hs f hf
    rw [hsettled]
    by_cases hsched : f.scheduled = true
    · have hnot : ¬ f.spurious = true := by
        rw [hlost f hf hsched]
        exact Bool.false_ne_true
      rw [if_pos ⟨hsched, hnot⟩, if_pos hsched]
    · rw [if_neg fun hc => hsched hc.1, if_neg hsched]
  returned hmode := by
    rcases h.mode with hm | ⟨-, -, -, hlate⟩
    · cases hm.symm.trans hmode
    · exact hlate

theorem mem_resumed {log : List Fire} {f : Fire} (hf : f ∈ resumed log) :
    ∃ g ∈ log, g.scheduled = f.scheduled ∧ g.spurious = f.spurious := by
  rw [resumed, List.mem_append, List.mem_map] at hf
  rcases hf with hf | ⟨g, hg, rfl⟩
  · exact ⟨f, (List.dropLast_sublist log).subset hf, rfl, rfl⟩
  · exact ⟨g, List.mem_of_getLast? (Option.mem_toList.mp hg), rfl, rfl⟩

end Firing

theorem noneLost_inductive : firing.Inductive Firing.Strong Firing.NoneLost where
  init s hs := by
    intro f hf
    rw [hs.log] at hf
    exact absurd hf List.not_mem_nil
  step s a t h hstrong hn := by
    change s.next a = some t at hn
    cases a with
    | pop =>
      obtain ⟨-, sys, -, rfl⟩ := Firing.pop_next hn
      exact h
    | expire spurious =>
      obtain ⟨it, sys, hpc, -, rfl⟩ := Firing.expire_next hn
      intro f hf hsched
      rcases List.mem_append.mp hf with hf | hf
      · exact h f hf hsched
      · rw [List.mem_singleton.mp hf] at hsched ⊢
        cases spurious with
        | false => rfl
        | true => exact Bool.noConfusion (hsched.symm.trans (hstrong rfl it hpc))
    | finish =>
      obtain ⟨sys, -, -, hlog | hlog⟩ := Firing.finish_next hn
      · rw [Firing.NoneLost, hlog]
        exact h
      · intro f hf hsched
        rw [hlog] at hf
        obtain ⟨g, hg, hgs, hgp⟩ := Firing.mem_resumed hf
        rw [← hgp]
        exact h g hg (hgs.trans hsched)
    | edit e =>
      obtain ⟨-, run, -, rfl⟩ := Firing.edit_next hn
      exact h
    | back =>
      obtain ⟨-, rfl⟩ := Firing.back_next hn
      exact h

/-- A spurious failure loses the wait of a timer that has left the list. -/
theorem fireExpiredTimers_correct {s : Firing} (hs : firing.ReachableBy Firing.Strong s) :
    s.Correct :=
  (loop_inductive.holds hs.reachable).correct (noneLost_inductive.holds hs)

/-- One Delay in the list, with the deadline 5, and the time is 9. -/
def dueDelay : Firing where
  run :=
    { sys :=
        { Sys.start (fun _ => 0) (fun _ => .IN) (fun _ => 0) with
          cells := fun w => ⟨.scheduled, some 0, 5, some w⟩
          timers := millListInsert .empty (.delay 0) none
          mode := .expiring 9 }
      order := [.delay 0] }
  tp := 9
  inside := false
  log := []

theorem dueDelay_begins : dueDelay.Begins where
  listed := by
    have hrep : (Links.empty : Links Waiter).Represents ([] ++ []) := empty_represents
    have hsort : SortOf dueDelay.run.deadline ([] ++ []) [] := SortOf.nil _
    refine ⟨List.nodup_singleton _, ⟨[.delay 0], ?_, ?_⟩, fun w _ => rfl⟩
    · show (millListInsert empty (Waiter.delay 0) none).Represents ([] ++ [.delay 0])
      exact millListInsert_represents hrep List.not_mem_nil
    · exact hsort.insert (fun b hb => absurd hb List.not_mem_nil)
        fun b hb => absurd hb List.not_mem_nil
  mode := rfl
  idle := rfl
  outside := rfl
  log := rfl

def noneSpurious (_ : Firing) : FireStep → Bool
  | .expire spurious => !spurious
  | _ => true

/-- The call has returned. -/
def isPolling : Mode → Bool
  | .polling => true
  | _ => false

/-- The coroutine of the Delay starts another one that is due as well. -/
theorem fireExpiredTimers_correct_two :
    ∃ s, firing.ReachableBy Firing.Strong s ∧ isPolling s.run.sys.mode ∧
      s.log.map Fire.resumes = [1, 1] ∧ s.Correct := by
  have hstrong : ∀ (s : Firing) a, noneSpurious s a = true → Firing.Strong s a := by
    intro s a ha heq
    rw [heq] at ha
    cases ha
  have hrun := firing.exists_reachableBy_of_runIf noneSpurious
    [.pop, .expire false, .finish, .edit (.add (.delay 1) 1), .back, .pop, .expire false, .finish,
      .back, .pop]
    (fun s => isPolling s.run.sys.mode && s.log.map Fire.resumes = [1, 1]) hstrong dueDelay_begins
    (by decide)
  obtain ⟨s, hs, hstate⟩ := hrun
  obtain ⟨hmode, hlog⟩ := Bool.and_eq_true_iff.mp hstate
  exact ⟨s, hs, hmode, of_decide_eq_true hlog, fireExpiredTimers_correct hs⟩

/-- The popped Delay is scheduled, and its coroutine is never resumed. -/
theorem fireExpiredTimers_loses : ¬ ∀ s, firing.Reachable s → s.Correct := by
  intro hall
  obtain ⟨s, hs, hstate⟩ := firing.exists_reachable_of_run [.pop, .expire true]
    (fun s => s.run.sys.pc .loop = .idle ∧ s.log.any fun f => f.scheduled ∧ f.resumes = 0)
    dueDelay_begins (by decide)
  obtain ⟨hidle, hlog⟩ := of_decide_eq_true hstate
  obtain ⟨f, hf, hlost⟩ := List.any_eq_true.mp hlog
  obtain ⟨hsched, hzero⟩ := of_decide_eq_true hlost
  have hfires := (hall s hs).fires hidle f hf
  rw [if_pos hsched, hzero] at hfires
  cases hfires

end Suil.Async.Thread
