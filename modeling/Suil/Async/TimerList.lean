import Suil.Lib.StableSort
import Suil.Async.Common
import Suil.Async.Thread
import Mathlib.Data.Int.Order.Basic
import Mathlib.Algebra.Ring.Int.Defs
import Mathlib.Algebra.Ring.Nat

/-! The timer list of one thread under `addTimer`, `cancelTimer` and the removal of its first
item, and the timeout that `computeWaitTimeout` takes from it. -/
namespace Suil.Async.Thread
open Transition DoublyLinked Links StableSort

/-- The loop of `addTimer` stops in front of the first item with a later deadline. -/
theorem scanTimers_stop {dds : Waiter → Int} {timers : Links Waiter} {dd : Int} {fuel : ℕ}
    {l₁ l₂ : List Waiter} {it : Option Waiter} (h : timers.Represents (l₁ ++ l₂))
    (hscan : scanTimers dds timers dd fuel l₂.head? = some it) :
    ∃ k₁ k₂, l₂ = k₁ ++ k₂ ∧ it = k₂.head? ∧ (∀ b ∈ k₁, dds b ≤ dd) ∧
      ∀ b, k₂.head? = some b → dd < dds b := by
  induction fuel generalizing l₁ l₂ with
  | zero => cases hscan
  | succ fuel ih =>
    cases l₂ with
    | nil =>
      refine ⟨[], [], rfl, (Option.some.inj hscan).symm, fun b hb => ?_, fun b hb => ?_⟩
      · exact absurd hb List.not_mem_nil
      · exact absurd hb.symm (Option.some_ne_none b)
    | cons a l₂ =>
      simp only [List.head?_cons, scanTimers] at hscan
      by_cases hlt : dd < dds a
      · rw [if_pos hlt] at hscan
        refine ⟨[], a :: l₂, rfl, (Option.some.inj hscan).symm, fun b hb => ?_, fun b hb => ?_⟩
        · exact absurd hb List.not_mem_nil
        · rwa [← Option.some.inj hb]
      · rw [if_neg hlt, h.next_eq] at hscan
        rw [List.append_cons] at h
        obtain ⟨k₁, k₂, rfl, hit, hle, hgt⟩ := ih h hscan
        refine ⟨a :: k₁, k₂, rfl, hit, fun b hb => ?_, hgt⟩
        rcases List.mem_cons.mp hb with rfl | hb
        · exact Int.not_lt.mp hlt
        · exact hle b hb

/-- It stops when it may look at one item more than the list has. -/
theorem scanTimers_isSome {dds : Waiter → Int} {timers : Links Waiter} {dd : Int} {fuel : ℕ}
    {l₁ l₂ : List Waiter} (h : timers.Represents (l₁ ++ l₂)) (hfuel : l₂.length < fuel) :
    (scanTimers dds timers dd fuel l₂.head?).isSome := by
  induction fuel generalizing l₁ l₂ with
  | zero => exact absurd hfuel (Nat.not_lt_zero _)
  | succ fuel ih =>
    cases l₂ with
    | nil => rfl
    | cons a l₂ =>
      simp only [List.head?_cons, scanTimers]
      split_ifs
      · rfl
      · rw [h.next_eq]
        rw [List.append_cons] at h
        exact ih h (Nat.lt_of_succ_lt_succ hfuel)

/-- A thread, and the timers in its list in the order in which they were added. -/
structure Run where
  sys : Sys
  order : List Waiter

namespace Run

def deadline (s : Run) (w : Waiter) : Int := (s.sys.cells w).dd

/-- The timers by deadline; `mergeSort` is stable. -/
def sorted (s : Run) : List Waiter := s.order.mergeSort fun v w => s.deadline v ≤ s.deadline w

end Run

/-- What happens to the timers of a thread. The deadline and the target of a linked one are not
touched, and only a linked one is cancelled. -/
inductive Edit
  | set (w : Waiter) (c : Cell)
  | reset (w : Waiter)
  | add (w : Waiter) (fuel : ℕ)
  | cancel (w : Waiter)

/-- The Timer is about to be linked by its Event or Delay. -/
def Run.edit (s : Run) : Edit → Option Run
  | .set w c =>
    if w ∈ s.order ∧ (c.dd ≠ (s.sys.cells w).dd ∨ c.target ≠ (s.sys.cells w).target) then none
    else some { s with sys := s.sys.setCell w c }
  | .reset w => if w ∈ s.order then none else some { s with sys := resetTimer s.sys w }
  | .add w fuel =>
    if w ∈ s.order ∨ (s.sys.cells w).target ≠ some w then none
    else (addTimer s.sys w fuel).map fun timers =>
      ⟨{ s.sys with timers := timers }, s.order ++ [w]⟩
  | .cancel w =>
    if w ∈ s.order then some ⟨cancelTimer s.sys w, s.order.filter (· ≠ w)⟩ else none

/-- What an edit does, where it is one. -/
inductive Run.Edited (s : Run) : Edit → Run → Prop
  | set {w : Waiter} {c : Cell} (hw : w ∈ s.order → c.dd = (s.sys.cells w).dd ∧
      c.target = (s.sys.cells w).target) :
      Edited s (.set w c) { s with sys := s.sys.setCell w c }
  | reset {w : Waiter} (hw : w ∉ s.order) : Edited s (.reset w) { s with sys := resetTimer s.sys w }
  | add {w : Waiter} {fuel : ℕ} {timers : Links Waiter} (hw : w ∉ s.order)
      (htarget : (s.sys.cells w).target = some w) (hadd : addTimer s.sys w fuel = some timers) :
      Edited s (.add w fuel) ⟨{ s.sys with timers := timers }, s.order ++ [w]⟩
  | cancel {w : Waiter} (hw : w ∈ s.order) :
      Edited s (.cancel w) ⟨cancelTimer s.sys w, s.order.filter (· ≠ w)⟩

theorem Run.edited {s t : Run} {e : Edit} (h : s.edit e = some t) : s.Edited e t := by
  cases e with
  | set w c =>
    rw [Run.edit] at h
    split_ifs at h with hw
    obtain rfl := Option.some.inj h
    refine .set fun hin => ?_
    have hsame := not_and.mp hw hin
    exact ⟨not_not.mp fun hne => hsame (.inl hne), not_not.mp fun hne => hsame (.inr hne)⟩
  | reset w =>
    rw [Run.edit] at h
    split_ifs at h with hw
    obtain rfl := Option.some.inj h
    exact .reset hw
  | add w fuel =>
    rw [Run.edit] at h
    split_ifs at h with hw
    obtain ⟨timers, hadd, rfl⟩ := Option.map_eq_some_iff.mp h
    obtain ⟨hout, htarget⟩ := not_or.mp hw
    exact .add hout (not_not.mp htarget) hadd
  | cancel w =>
    rw [Run.edit] at h
    split_ifs at h with hw
    obtain rfl := Option.some.inj h
    exact .cancel hw

/-- `mill_list_erase` at the first item. -/
def Run.pop (s : Run) : Option Run :=
  match s.sys.timers.first with
  | none => none
  | some w => some
      ⟨{ s.sys with timers := (millListErase s.sys.timers w).1 }, s.order.filter (· ≠ w)⟩

/-- The list is sorted, and every linked Timer belongs to the object that it targets. -/
structure Run.Listed (s : Run) : Prop where
  nodup : s.order.Nodup
  spelled : ∃ l, s.sys.timers.Represents l ∧ SortOf s.deadline l s.order
  target : ∀ w ∈ s.order, (s.sys.cells w).target = some w

namespace Run
variable {s t : Run} {v w : Waiter} {l : List Waiter} {c : Cell} {fuel : ℕ}

theorem Listed.represents (h : s.Listed) : s.sys.timers.Represents s.sorted := by
  obtain ⟨l, hl, hsort⟩ := h.spelled
  rw [sorted, ← hsort.eq_mergeSort]
  exact hl

theorem sortOf (s : Run) : SortOf s.deadline s.sorted s.order :=
  SortOf.mergeSort s.deadline s.order

theorem mem_sorted : w ∈ s.sorted ↔ w ∈ s.order := s.sortOf.mem_iff

theorem Listed.congr (h : s.Listed) {sys : Sys} (htimers : sys.timers = s.sys.timers)
    (hcells : ∀ v ∈ s.order, (sys.cells v).dd = (s.sys.cells v).dd ∧
      (sys.cells v).target = (s.sys.cells v).target) : Listed ⟨sys, s.order⟩ where
  nodup := h.nodup
  spelled := by
    obtain ⟨l, hl, hsort⟩ := h.spelled
    exact ⟨l, htimers ▸ hl, hsort.congr fun v hv => (hcells v hv).1.symm⟩
  target v hv := (hcells v hv).2.trans (h.target v hv)

theorem Listed.set (h : s.Listed)
    (hc : w ∈ s.order → c.dd = (s.sys.cells w).dd ∧ c.target = (s.sys.cells w).target) :
    Listed ⟨s.sys.setCell w c, s.order⟩ := by
  refine h.congr rfl fun v hv => ?_
  rw [Sys.setCell_cells]
  by_cases hvw : v = w
  · rw [hvw, Function.update_self]
    exact hc (hvw ▸ hv)
  · rw [Function.update_of_ne hvw]
    exact ⟨rfl, rfl⟩

theorem Listed.setState (h : s.Listed) (w : Waiter) (st : State) :
    Listed ⟨s.sys.setState w st, s.order⟩ :=
  h.set (c := { s.sys.cells w with state := st }) fun _ => ⟨rfl, rfl⟩

theorem Listed.reset (h : s.Listed) (hw : w ∉ s.order) : Listed ⟨resetTimer s.sys w, s.order⟩ := by
  have hset := h.set (c := { s.sys.cells w with dd := 0, target := none }) fun hm => absurd hm hw
  obtain ⟨l, hl, hsort⟩ := hset.spelled
  have hwl : w ∉ l := fun hm => hw (hsort.mem_iff.mp hm)
  exact ⟨hset.nodup, ⟨l, hl.unlink hwl, hsort⟩, hset.target⟩

theorem Listed.filter_sorted (h : s.Listed) {l₁ l₂ : List Waiter}
    (hsplit : s.sorted = l₁ ++ w :: l₂) : s.sorted.filter (· ≠ w) = l₁ ++ l₂ := by
  have hnodup := h.represents.nodup
  rw [hsplit] at hnodup
  obtain ⟨hw, -⟩ := List.nodup_cons.mp (List.nodup_middle.mp hnodup)
  rw [List.mem_append, not_or] at hw
  have hkeep : ∀ k : List Waiter, w ∉ k → k.filter (· ≠ w) = k := by
    intro k hk
    apply List.filter_eq_self.mpr
    intro v hv
    exact decide_eq_true (ne_of_mem_of_not_mem hv hk)
  rw [hsplit, List.filter_append, List.filter_cons_of_neg (by simp), hkeep l₁ hw.1, hkeep l₂ hw.2]

theorem Listed.erase (h : s.Listed) (hw : w ∈ s.order) :
    Listed ⟨{ s.sys with timers := (millListErase s.sys.timers w).1 }, s.order.filter (· ≠ w)⟩ := by
  obtain ⟨l₁, l₂, hsplit⟩ := List.append_of_mem (mem_sorted.mpr hw)
  have hrep := h.represents
  rw [hsplit] at hrep
  refine ⟨h.nodup.filter _, ⟨l₁ ++ l₂, millListErase_represents hrep, ?_⟩, fun v hv => ?_⟩
  · rw [← h.filter_sorted hsplit]
    exact s.sortOf.filter _
  · exact h.target v (List.mem_of_mem_filter hv)

theorem Listed.add (h : s.Listed) {timers : Links Waiter} (hw : w ∉ s.order)
    (htarget : (s.sys.cells w).target = some w) (hadd : addTimer s.sys w fuel = some timers) :
    Listed ⟨{ s.sys with timers := timers }, s.order ++ [w]⟩ := by
  obtain ⟨it, hscan, rfl⟩ := Option.map_eq_some_iff.mp hadd
  rw [h.represents.first] at hscan
  have hrep : s.sys.timers.Represents ([] ++ s.sorted) := h.represents
  obtain ⟨k₁, k₂, hsplit, rfl, hle, hgt⟩ := scanTimers_stop hrep hscan
  have hsort := s.sortOf
  have hwk : w ∉ k₁ ++ k₂ := fun hm => hw (mem_sorted.mp (hsplit ▸ hm))
  rw [List.nil_append, hsplit] at hrep
  rw [hsplit] at hsort
  have hlt : ∀ b ∈ k₂, s.deadline w < s.deadline b := by
    intro b hb
    cases k₂ with
    | nil => exact absurd hb List.not_mem_nil
    | cons a k₂ =>
      have ha : s.deadline w < s.deadline a := hgt a rfl
      rcases List.mem_cons.mp hb with rfl | hb
      · exact ha
      · have hpair := (List.pairwise_append.mp hsort.sorted).2.1
        exact ha.trans_le ((List.pairwise_cons.mp hpair).1 b hb)
  refine ⟨?_, ⟨_, millListInsert_represents hrep hwk, hsort.insert hle hlt⟩, fun v hv => ?_⟩
  · exact List.nodup_append.mpr ⟨h.nodup, List.nodup_singleton w,
      fun a ha b hb => ne_of_mem_of_not_mem ha (List.mem_singleton.mp hb ▸ hw)⟩
  · rcases List.mem_append.mp hv with hv | hv
    · exact h.target v hv
    · rw [List.mem_singleton.mp hv]
      exact htarget

theorem Listed.edit {e : Edit} (h : s.Listed) (he : s.edit e = some t) : t.Listed := by
  cases edited he with
  | set hw => exact h.set hw
  | reset hw => exact h.reset hw
  | add hw htarget hadd => exact h.add hw htarget hadd
  | @cancel w hw =>
    have htarget : (s.sys.cells w).target ≠ none := by
      rw [h.target w hw]
      exact Option.some_ne_none w
    have herase := h.erase hw
    rw [cancelTimer, if_pos htarget]
    exact ⟨herase.nodup, herase.spelled, herase.target⟩

theorem Listed.pop (h : s.Listed) (hp : s.pop = some t) : t.Listed := by
  unfold Run.pop at hp
  cases hfirst : s.sys.timers.first with
  | none =>
    rw [hfirst] at hp
    cases hp
  | some w =>
    rw [hfirst] at hp
    obtain rfl := Option.some.inj hp
    rw [h.represents.first] at hfirst
    exact h.erase (mem_sorted.mp (List.mem_of_head? hfirst))

/-- The first item is the one that goes, and the others keep their order. -/
theorem Listed.pop_sorted (h : s.Listed) (hsorted : s.sorted = w :: l) :
    ∃ t, s.pop = some t ∧ t.sorted = l := by
  have hfirst : s.sys.timers.first = some w := by
    rw [h.represents.first, hsorted]
    rfl
  have hsplit : s.sorted = [] ++ w :: l := hsorted
  have hrest : s.sorted.filter (· ≠ w) = l := h.filter_sorted hsplit
  have hsort := s.sortOf.filter (· ≠ w)
  rw [hrest] at hsort
  rw [Run.pop, hfirst]
  exact ⟨_, rfl, hsort.eq_mergeSort.symm⟩

end Run

inductive ListStep
  | edit (e : Edit)
  | pop

/-- The timers of a thread, from the empty list on. -/
def timerList : System Run ListStep where
  init s := s.sys.timers = .empty ∧ s.order = []
  next s
    | .edit e => s.edit e
    | .pop => s.pop

theorem listed_inductive : timerList.Inductive (fun _ _ => True) Run.Listed where
  init s hs := by
    obtain ⟨htimers, horder⟩ := hs
    have hrep : s.sys.timers.Represents [] := htimers ▸ empty_represents
    refine ⟨horder ▸ List.nodup_nil, ⟨[], hrep, ?_⟩, fun w hw => ?_⟩
    · rw [horder]
      exact SortOf.nil _
    · rw [horder] at hw
      exact absurd hw List.not_mem_nil
  step s a t h _ hn := by
    cases a with
    | edit e => exact h.edit hn
    | pop => exact h.pop hn

/-- The pointers form a doubly linked list, of the timers added and not yet removed, sorted. -/
structure Run.WellFormed (s : Run) : Prop where
  first_prev : ∀ w, s.sys.timers.first = some w → s.sys.timers.prev w = none
  last_next : ∀ w, s.sys.timers.last = some w → s.sys.timers.next w = none
  inverse : ∀ v ∈ s.order, ∀ w ∈ s.order,
    s.sys.timers.next v = some w ↔ s.sys.timers.prev w = some v
  null : s.sys.timers.first = none ↔ s.sys.timers.last = none
  once : s.order.Nodup
  linked : ∀ w, s.sys.timers.Reaches w ↔ w ∈ s.order
  stable : ∀ n, s.sys.timers.nth n = s.sorted[n]?

theorem Run.Listed.wellFormed {s : Run} (h : s.Listed) : s.WellFormed where
  first_prev w hw := by
    obtain ⟨l, hl⟩ := List.head?_eq_some_iff.mp (h.represents.first.symm.trans hw)
    have hrep : s.sys.timers.Represents ([] ++ w :: l) := hl ▸ h.represents
    exact hrep.prev_eq
  last_next w hw := by
    obtain ⟨l, hl⟩ := List.getLast?_eq_some_iff.mp (h.represents.last.symm.trans hw)
    have hrep := h.represents
    rw [hl] at hrep
    exact hrep.next_eq
  inverse v hv w hw := h.represents.next_iff_prev (mem_sorted.mpr hv) (mem_sorted.mpr hw)
  null := by
    rw [h.represents.first, h.represents.last, List.head?_eq_none_iff, List.getLast?_eq_none_iff]
  once := h.nodup
  linked w := h.represents.reaches_iff.trans mem_sorted
  stable := h.represents.nth_eq

/-- The loop of `addTimer` ends. -/
theorem Run.Listed.addTimer_isSome {s : Run} (h : s.Listed) (w : Waiter) {fuel : ℕ}
    (hfuel : s.order.length < fuel) : (addTimer s.sys w fuel).isSome := by
  have hrep : s.sys.timers.Represents ([] ++ s.sorted) := h.represents
  have hlen : s.sorted.length = s.order.length := List.length_mergeSort _
  rw [addTimer, Option.isSome_map, h.represents.first]
  exact scanTimers_isSome hrep (by omega)

theorem timers_wellFormed {s : Run} (hs : timerList.Reachable s) :
    s.WellFormed ∧ (∀ w fuel, s.order.length < fuel → (addTimer s.sys w fuel).isSome) ∧
    ∀ w l, s.sorted = w :: l → ∃ t, s.pop = some t ∧ t.sorted = l :=
  have h := listed_inductive.holds hs
  ⟨h.wellFormed, fun w _ hfuel => h.addTimer_isSome w hfuel, fun _ _ => h.pop_sorted⟩

/-- No object, and no timer. -/
def Run.start : Run := ⟨.start (fun _ => 0) (fun _ => .IN) fun _ => 0, []⟩

/-- A Delay gets its deadline, its target and its place in the list. -/
def delayed (d : ℕ) (dd : Int) (fuel : ℕ) : List ListStep :=
  [.edit (.set (.delay d) ⟨.scheduled, some d, dd, some (.delay d)⟩), .edit (.add (.delay d) fuel)]

/-- Four Delays, the first and the last with the same deadline; one of the others is cancelled and
one popped. -/
theorem timers_wellFormed_four : ∃ s, timerList.Reachable s ∧ s.sorted = [.delay 0, .delay 3] ∧
    s.WellFormed ∧ ∃ t, s.pop = some t ∧ t.sorted = [.delay 3] := by
  have hrun := timerList.exists_reachable_of_run
    (delayed 0 7 1 ++ delayed 1 5 2 ++ delayed 2 4 3 ++ delayed 3 7 4 ++
      [.edit (.cancel (.delay 1)), .pop])
    (fun s => s.order = [.delay 0, .delay 3] ∧ s.order.map s.deadline = [7, 7])
    (s := .start) ⟨rfl, rfl⟩ (by decide)
  obtain ⟨s, hs, hp⟩ := hrun
  obtain ⟨horder, hdeadlines⟩ := of_decide_eq_true hp
  rw [horder] at hdeadlines
  have hsorted : s.sorted = [.delay 0, .delay 3] := by
    simp_all [Run.sorted, List.mergeSort]
  obtain ⟨hwell, -, hpop⟩ := timers_wellFormed hs
  exact ⟨s, hs, hsorted, hwell, hpop _ _ hsorted⟩

def computeWaitTimeout (s : Sys) (fastnow : Int) : Int :=
  waitTimeout (s.timers.first.map fun tm => (s.cells tm).dd) fastnow

/-- The result is -1 for the empty list, and else not after the least deadline `d`. -/
structure InTime (s : Run) (now t : Int) : Prop where
  forever : t = -1 ↔ s.order = []
  least : ∀ d, (∃ w ∈ s.order, s.deadline w = d) → (∀ w ∈ s.order, d ≤ s.deadline w) →
    0 ≤ t ∧ t ≤ max 0 (d - now)

theorem Run.Listed.first_least {s : Run} (h : s.Listed) {w : Waiter}
    (hw : s.sys.timers.first = some w) : w ∈ s.order ∧ ∀ v ∈ s.order, s.deadline w ≤ s.deadline v := by
  rw [h.represents.first] at hw
  obtain ⟨l, hl⟩ := List.head?_eq_some_iff.mp hw
  have hsort := s.sortOf
  rw [hl] at hsort
  exact ⟨mem_sorted.mp (List.mem_of_head? hw), hsort.head.1⟩

theorem Run.Listed.first_eq_none_iff {s : Run} (h : s.Listed) :
    s.sys.timers.first = none ↔ s.order = [] := by
  rw [h.represents.first, List.head?_eq_none_iff, ← List.length_eq_zero_iff,
    ← List.length_eq_zero_iff]
  exact iff_of_eq (congrArg (· = 0) (List.length_mergeSort _))

theorem Run.Listed.inTime_iff {s : Run} (h : s.Listed) (now : Int) :
    InTime s now (computeWaitTimeout s.sys now) ↔
      ∀ d, (∃ w ∈ s.order, s.deadline w = d) → (∀ w ∈ s.order, d ≤ s.deadline w) →
        d - now ≤ 0 ∨ (d - now) % 2 ^ 32 < 2 ^ 31 := by
  cases hfirst : s.sys.timers.first with
  | none =>
    have hnil := h.first_eq_none_iff.mp hfirst
    have hvoid : ∀ d, ¬ ∃ w ∈ s.order, s.deadline w = d := by
      intro d hd
      rw [hnil] at hd
      obtain ⟨w, hw, -⟩ := hd
      exact List.not_mem_nil hw
    rw [computeWaitTimeout, hfirst]
    exact iff_of_true ⟨iff_of_true rfl hnil, fun d hd => absurd hd (hvoid d)⟩
      fun d hd => absurd hd (hvoid d)
  | some w =>
    obtain ⟨hw, hleast⟩ := h.first_least hfirst
    have hne : s.order ≠ [] := List.ne_nil_of_mem hw
    have hunique : ∀ d, (∃ w ∈ s.order, s.deadline w = d) → (∀ w ∈ s.order, d ≤ s.deadline w) →
        d = s.deadline w := by
      rintro d ⟨v, hv, rfl⟩ hd
      exact Int.le_antisymm (hd w hw) (hleast v hv)
    have htimeout : computeWaitTimeout s.sys now =
        if s.deadline w - now ≤ 0 then 0 else Narrow.int (s.deadline w - now) := by
      rw [computeWaitTimeout, hfirst]
      rfl
    rw [htimeout]
    by_cases hat : s.deadline w - now ≤ 0
    · rw [if_pos hat]
      constructor
      · intro _ d hd hle
        rw [hunique d hd hle]
        exact .inl hat
      · intro _
        exact ⟨iff_of_false (by decide) hne, fun d _ _ => ⟨Int.le_refl 0, le_max_left _ _⟩⟩
    · rw [if_neg hat]
      have hiff := Narrow.int_between_iff (x := s.deadline w - now) (by omega)
      constructor
      · intro hin d hd hle
        rw [hunique d hd hle]
        obtain ⟨hlo, hhi⟩ := hin.least _ ⟨w, hw, rfl⟩ hleast
        exact .inr (hiff.mp ⟨hlo, by omega⟩)
      · intro hall
        have hlt := (hall _ ⟨w, hw, rfl⟩ hleast).resolve_left hat
        obtain ⟨hlo, hhi⟩ := hiff.mpr hlt
        refine ⟨iff_of_false (by omega) hne, fun d hd hle => ?_⟩
        rw [hunique d hd hle]
        omega

/-- The wait is too long, or without an end, when the narrowed difference is negative. -/
theorem computeWaitTimeout_inTime_iff {s : Run} (hs : timerList.Reachable s) (now : Int) :
    InTime s now (computeWaitTimeout s.sys now) ↔
      ∀ d, (∃ w ∈ s.order, s.deadline w = d) → (∀ w ∈ s.order, d ≤ s.deadline w) →
        d - now ≤ 0 ∨ (d - now) % 2 ^ 32 < 2 ^ 31 :=
  (listed_inductive.holds hs).inTime_iff now

theorem computeWaitTimeout_inTime_iff_seven : ∃ s, timerList.Reachable s ∧ s.order = [.delay 0] ∧
    (InTime s 5 (computeWaitTimeout s.sys 5) ↔
      ∀ d, (∃ w ∈ s.order, s.deadline w = d) → (∀ w ∈ s.order, d ≤ s.deadline w) →
        d - 5 ≤ 0 ∨ (d - 5) % 2 ^ 32 < 2 ^ 31) := by
  obtain ⟨s, hs, horder⟩ := timerList.exists_reachable_of_run (delayed 0 7 1)
    (fun s => s.order = [.delay 0]) (s := .start) ⟨rfl, rfl⟩ (by decide)
  exact ⟨s, hs, of_decide_eq_true horder, computeWaitTimeout_inTime_iff hs 5⟩

/-- A Delay of 2^31 ms: the timeout is negative, and `epoll_wait` takes it for no limit. -/
theorem computeWaitTimeout_not_inTime :
    ¬ ∀ s now, timerList.Reachable s → (∀ w ∈ s.order, 0 ≤ s.deadline w ∧ s.deadline w < 2 ^ 63) →
      0 ≤ now → now < 2 ^ 63 → InTime s now (computeWaitTimeout s.sys now) := by
  intro hall
  obtain ⟨s, hs, hstate⟩ := timerList.exists_reachable_of_run (delayed 0 (2 ^ 31) 1)
    (fun s => s.order = [.delay 0] ∧ s.deadline (.delay 0) = 2 ^ 31) (s := .start) ⟨rfl, rfl⟩
    (by decide)
  obtain ⟨horder, hdeadline⟩ := of_decide_eq_true hstate
  have hevery : ∀ w ∈ s.order, s.deadline w = 2 ^ 31 := by
    intro w hw
    rw [horder] at hw
    rw [List.mem_singleton.mp hw, hdeadline]
  have hin := hall s 0 hs (fun w hw => by rw [hevery w hw]; decide) (by decide) (by decide)
  have hmem : Waiter.delay 0 ∈ s.order := horder ▸ List.mem_singleton_self _
  have hleast := ((listed_inductive.holds hs).inTime_iff 0).mp hin (2 ^ 31)
    ⟨.delay 0, hmem, hdeadline⟩ fun w hw => (hevery w hw).ge
  exact absurd hleast (by decide)

end Suil.Async.Thread
