import Suil.Async.Task

/-! The lifetime of the frame of a task. The task object destroys a frame that is not
joinable, the final awaiter a joinable one; neither waits for the accesses that the
other side has ahead of it. -/
namespace Suil.Async.Task
open Transition

variable {T : Type*} {joinable : Bool} {cfg : Config T} {prog : List Op} {s s' : State T} {a : Act}

/-- The owner has an access to the frame ahead of it, other than the destructor. -/
def Accesses (joinable : Bool) (cfg : Config T) (s : State T) : Prop :=
  match s.owner with
  | .idle => s.todo ≠ []
  | .install => joinable = false
  | .exchange => True
  | .resume => cfg.void = false ∨ s.todo ≠ []
  | .suspended | .ended => False

/-- The destructor of a task that is not joinable comes after the last access of the final awaiter,
and the destroy in the final awaiter of a joinable task after the last access of the owner. -/
def InOrder (joinable : Bool) (cfg : Config T) (s : State T) : Act → Prop
  | .child => s.child = .destroy → ¬ Accesses joinable cfg s
  | .owner => joinable = false → s.owner = .idle → s.todo = [] → s.child = .finished

instance : Decidable (Accesses joinable cfg s) :=
  match h : s.owner with
  | .idle => decidable_of_iff (s.todo ≠ []) (by simp [Accesses, h])
  | .install => decidable_of_iff (joinable = false) (by simp [Accesses, h])
  | .exchange => .isTrue (by simp [Accesses, h])
  | .resume => decidable_of_iff (cfg.void = false ∨ s.todo ≠ []) (by simp [Accesses, h])
  | .suspended => .isFalse (by simp [Accesses, h])
  | .ended => .isFalse (by simp [Accesses, h])

instance : Decidable (InOrder joinable cfg s a) :=
  match a with
  | .child => inferInstanceAs (Decidable (s.child = .destroy → ¬ Accesses joinable cfg s))
  | .owner => inferInstanceAs
      (Decidable (joinable = false → s.owner = .idle → s.todo = [] → s.child = .finished))

/-- No access after the destroy; one destroy, when both sides are done; a join that has returned
has waited for the body. -/
structure Lifetime (cfg : Config T) (s : State T) : Prop where
  noUaf : s.uaf = false
  atMost : s.destroyed ≤ 1
  exactly : s.child = .finished → s.owner = .ended → s.destroyed = 1
  joined : s.joined = true → s.child.done = true ∧ s.data = cfg.outcome

/-- Nothing is left that would access the frame. -/
structure Released (joinable : Bool) (cfg : Config T) (s : State T) : Prop where
  dead : s.alive = false
  once : s.destroyed = 1
  child : s.child = .finished
  owner : ¬ Accesses joinable cfg s
  ended : joinable = false → s.owner = .ended

/-- The frame is alive, and the side that destroys it has not come to that. -/
structure Alive (joinable : Bool) (s : State T) : Prop where
  alive : s.alive = true
  notYet : s.destroyed = 0
  child : joinable = true → s.child ≠ .finished
  owner : joinable = false → s.owner ≠ .ended

structure Held (joinable : Bool) (cfg : Config T) (s : State T) : Prop where
  clean : s.uaf = false
  frame : Alive joinable s ∨ Released joinable cfg s
  kind : (s.child = .destroy → joinable = true) ∧ (s.child = .readContinuation → joinable = false)
  released : s.joinSem = true ∨ s.joined = true → s.child.done = true
  empty : s.child = .body → s.data = none
  data : s.child ≠ .body → s.data = cfg.outcome

theorem Held.start : Held joinable cfg (.start prog) where
  clean := rfl
  frame := .inl ⟨rfl, rfl, fun _ => by simp [State.start], fun _ => by simp [State.start]⟩
  kind := by simp [State.start]
  released := by simp [State.start]
  empty _ := rfl
  data h := absurd rfl h

theorem Alive.touch (h : Alive joinable s) (hu : s.uaf = false) : s.touch.uaf = false := by
  simp [State.touch, hu, h.alive]

/-- While the coroutine runs the frame is alive. -/
theorem Held.alive (h : Held joinable cfg s) (hc : s.child ≠ .finished) : Alive joinable s :=
  h.frame.resolve_right fun hr => hc hr.child

/-- While the owner has an access ahead of it the frame is alive. -/
theorem Held.alive_of_accesses (h : Held joinable cfg s) (ha : Accesses joinable cfg s) :
    Alive joinable s :=
  h.frame.resolve_right fun hr => hr.owner ha

theorem Held.advance {child : Child} {flag joinSem : Bool} (h : Held joinable cfg s)
    (hb : s.child ≠ .body) (hf : s.child ≠ .finished) (hd : child.done = true)
    (hkind : (child = .destroy → joinable = true) ∧ (child = .readContinuation → joinable = false))
    (hfin : joinable = true → child ≠ .finished) :
    Held joinable cfg { s.touch with flag := flag, joinSem := joinSem, child := child } where
  clean := (h.alive hf).touch h.clean
  frame := .inl { h.alive hf with child := hfin }
  kind := hkind
  released _ := hd
  empty he := by
    change child = .body at he
    simp [he, Child.done] at hd
  data _ := h.data hb

theorem Held.child (h : Held joinable cfg s) (hok : InOrder joinable cfg s .child)
    (ha : Step joinable cfg s .child s') : Held joinable cfg s' := by
  cases ha with
  | complete hc =>
    have hl := h.alive (by simp [hc])
    exact {
      clean := hl.touch h.clean
      frame := .inl { hl with child := fun _ => by simp }
      kind := by simp
      released := fun hr => by simpa [hc, Child.done] using h.released hr
      empty := by simp
      data := fun _ => by simp [h.empty hc] }
  | suspend hc => exact h.advance (by simp [hc]) (by simp [hc]) rfl (by simp) (by simp)
  | release hc hj => exact h.advance (by simp [hc]) (by simp [hc]) rfl (by simp [hj]) (by simp)
  | exchangeFirst hc hj _ =>
    exact h.advance (by simp [hc]) (by simp [hc]) rfl (by simp) (by simp [hj])
  | exchangeSecond hc hj _ =>
    exact h.advance (by simp [hc]) (by simp [hc]) rfl (by simp [hj]) (by simp)
  | missing hc _ =>
    have hj := h.kind.2 hc
    exact h.advance (by simp [hc]) (by simp [hc]) rfl (by simp) (by simp [hj])
  | continuation hc _ =>
    have hl := h.alive (by simp [hc])
    have hj := h.kind.2 hc
    exact {
      clean := hl.touch h.clean
      frame := .inl { hl with
        child := fun ht => by simp [hj] at ht
        owner := fun _ => by simp [State.transfer] }
      kind := by simp [State.transfer]
      released := fun _ => rfl
      empty := by simp [State.transfer]
      data := fun _ => h.data (by simp [hc]) }
  | destroy hc =>
    have hl := h.alive (by simp [hc])
    have hj := h.kind.1 hc
    exact {
      clean := hl.touch h.clean
      frame := .inr ⟨rfl, by simp [State.destroy, hl.notYet], rfl, hok hc, by simp [hj]⟩
      kind := by simp
      released := fun _ => rfl
      empty := by simp
      data := fun _ => h.data (by simp [hc]) }

/-- An operation of the owner that touches the promise. -/
theorem Held.access (h : Held joinable cfg s) (ha : Accesses joinable cfg s)
    (ho : s'.owner ≠ .ended) (hr : s'.joinSem = true ∨ s'.joined = true → s.child.done = true)
    (hu : s'.uaf = s.touch.uaf) (hl : s'.alive = s.alive) (hd : s'.destroyed = s.destroyed)
    (hc : s'.child = s.child) (hv : s'.data = s.data) : Held joinable cfg s' := by
  have hlive := h.alive_of_accesses ha
  constructor
  · rw [hu]
    exact hlive.touch h.clean
  · exact .inl ⟨hl.trans hlive.alive, hd.trans hlive.notYet, by rw [hc]; exact hlive.child, fun _ => ho⟩
  · rw [hc]
    exact h.kind
  · rw [hc]
    exact hr
  · rw [hc, hv]
    exact h.empty
  · rw [hc, hv]
    exact h.data

/-- A step of the owner that does not touch the promise. -/
theorem Held.quiet {owner : Owner} (h : Held joinable cfg s) (hne : s.owner ≠ .ended)
    (ho : joinable = false → owner ≠ .ended)
    (ha : Accesses joinable cfg { s with owner := owner } → Accesses joinable cfg s) :
    Held joinable cfg { s with owner := owner } :=
  { h with
    frame := h.frame.imp (fun hl => { hl with owner := ho }) fun hr =>
      { hr with
        owner := fun hacc => hr.owner (ha hacc)
        ended := fun hj => absurd (hr.ended hj) hne } }

theorem Held.owner (h : Held joinable cfg s) (hok : InOrder joinable cfg s .owner)
    (ha : Step joinable cfg s .owner s') : Held joinable cfg s' := by
  cases ha with
  | destructor ho ht hj =>
    have hl := h.frame.resolve_right fun hr => by simpa [ho] using hr.ended hj
    have hfin := hok hj ho ht
    exact { h with
      clean := hl.touch h.clean
      frame := .inr ⟨rfl, by simp [State.destroy, hl.notYet], hfin, id, fun _ => rfl⟩ }
  | forget ho ht hj => exact h.quiet (by simp [ho]) (by simp [hj]) False.elim
  | noop ho hj => exact h.quiet (by simp [ho]) (by simp [hj]) False.elim
  | resumeVoid ho hv =>
    refine h.quiet (by simp [ho]) (by simp) fun hacc => ?_
    unfold Accesses
    rw [ho]
    exact .inr hacc
  | access ho ht _ =>
    have hacc : Accesses joinable cfg s := by simp [Accesses, ho, ht]
    exact h.access hacc (by simp [ho]) h.released rfl rfl rfl rfl rfl
  | join ho ht hj hs =>
    have hacc : Accesses joinable cfg s := by simp [Accesses, ho, ht]
    have hl := h.alive_of_accesses hacc
    have hsem : s.joinSem = true := hs.resolve_right (by simp [hl.alive])
    exact h.access hacc (by simp [ho]) (fun _ => h.released (.inl hsem)) rfl rfl rfl rfl rfl
  | ready ho ht _ =>
    have hacc : Accesses joinable cfg s := by simp [Accesses, ho, ht]
    exact h.access hacc (by simp [State.transfer]) h.released rfl rfl rfl rfl rfl
  | notReady ho ht _ =>
    have hacc : Accesses joinable cfg s := by simp [Accesses, ho, ht]
    exact h.access hacc (by simp) h.released rfl rfl rfl rfl rfl
  | install ho hj =>
    have hacc : Accesses joinable cfg s := by simp [Accesses, ho, hj]
    exact h.access hacc (by simp) h.released rfl rfl rfl rfl rfl
  | flagSecond ho _ =>
    have hacc : Accesses joinable cfg s := by simp [Accesses, ho]
    exact h.access hacc (by simp [State.transfer]) h.released rfl rfl rfl rfl rfl
  | flagFirst ho _ =>
    have hacc : Accesses joinable cfg s := by simp [Accesses, ho]
    exact h.access hacc (by simp) h.released rfl rfl rfl rfl rfl
  | resume ho hv =>
    have hacc : Accesses joinable cfg s := by simp [Accesses, ho, hv]
    exact h.access hacc (by simp) h.released rfl rfl rfl rfl rfl

theorem held_inductive : (system joinable cfg prog).Inductive (InOrder joinable cfg)
    (Held joinable cfg) where
  init := by
    rintro _ rfl
    exact .start
  step s a t h hok ha := by
    have hstep := next_step ha
    cases a with
    | child => exact h.child hok hstep
    | owner => exact h.owner hok hstep

theorem Held.lifetime (h : Held joinable cfg s) : Lifetime cfg s where
  noUaf := h.clean
  atMost := by
    rcases h.frame with hl | hr
    · simp [hl.notYet]
    · simp [hr.once]
  exactly hc ho := by
    rcases h.frame with hl | hr
    · cases hj : joinable with
      | true => exact absurd hc (hl.child hj)
      | false => exact absurd ho (hl.owner hj)
    · exact hr.once
  joined hj := by
    have hd := h.released (.inr hj)
    refine ⟨hd, h.data fun hb => ?_⟩
    simp [hb, Child.done] at hd

/-- The frame is gone and somebody will access it, or has done so. -/
def Doomed (joinable : Bool) (cfg : Config T) (s : State T) : Prop :=
  s.uaf = true ∨ s.alive = false ∧ (s.child ≠ .finished ∨ Accesses joinable cfg s)

theorem doomed_of_touch (h : Doomed joinable cfg s) (hu : s'.uaf = s.touch.uaf) :
    Doomed joinable cfg s' := by
  refine .inl ?_
  rw [hu]
  rcases h with h | ⟨h, -⟩ <;> simp [State.touch, h]

theorem Doomed.step (h : Doomed joinable cfg s) (ha : Step joinable cfg s a s') :
    Doomed joinable cfg s' := by
  cases ha with
  | forget ho ht hj =>
    exact h.imp_right fun ⟨hl, hd⟩ => ⟨hl, hd.imp_right fun hacc => by simp [Accesses, ho, ht] at hacc⟩
  | noop ho hj =>
    exact h.imp_right fun ⟨hl, hd⟩ => ⟨hl, hd.imp_right fun hacc => by simp [Accesses, ho, hj] at hacc⟩
  | resumeVoid ho hv =>
    refine h.imp_right fun ⟨hl, hd⟩ => ⟨hl, hd.imp_right fun hacc => ?_⟩
    simpa [Accesses, ho, hv] using hacc
  | _ => exact doomed_of_touch h rfl

/-- A step out of order dooms the run. -/
theorem doomed_of_not_inOrder (ha : Step joinable cfg s a s') (hok : ¬ InOrder joinable cfg s a) :
    Doomed joinable cfg s' := by
  cases a with
  | child =>
    simp only [InOrder, Classical.not_imp, not_not] at hok
    obtain ⟨hc, hacc⟩ := hok
    cases ha with
    | destroy _ => exact .inr ⟨rfl, .inr hacc⟩
    | _ => simp_all
  | owner =>
    simp only [InOrder, Classical.not_imp] at hok
    obtain ⟨hj, ho, ht, hc⟩ := hok
    cases ha with
    | destructor _ _ _ => exact .inr ⟨rfl, .inl hc⟩
    | _ => simp_all

theorem inOrder_or_doomed (hs : (system joinable cfg prog).Reachable s) :
    (system joinable cfg prog).ReachableBy (InOrder joinable cfg) s ∨ Doomed joinable cfg s := by
  induction hs with
  | init h0 => exact .inl (.init h0)
  | @step s t a _ _ hn ih =>
    have hstep := next_step hn
    rcases ih with ih | ih
    · by_cases hok : InOrder joinable cfg s a
      · exact .inl (.step ih hok hn)
      · exact .inr (doomed_of_not_inOrder hstep hok)
    · exact .inr (ih.step hstep)

/-- In a run whose steps are in order the frame is used and destroyed as it should; a run that
both sides complete and that uses and destroys it so is one of these. -/
theorem frame_lifetime :
    (∀ s, (system joinable cfg prog).ReachableBy (InOrder joinable cfg) s → Lifetime cfg s) ∧
    ∀ s, (system joinable cfg prog).Reachable s → s.child = .finished → s.owner = .ended →
      Lifetime cfg s → (system joinable cfg prog).ReachableBy (InOrder joinable cfg) s := by
  refine ⟨fun s hs => (held_inductive.holds hs).lifetime, fun s hs hc ho hl => ?_⟩
  refine (inOrder_or_doomed hs).resolve_right ?_
  rintro (hu | ⟨-, hd⟩)
  · simp [hl.noUaf] at hu
  · simp [hc, ho, Accesses] at hd

/-- The owner comes back from join before the final awaiter destroys the frame. -/
theorem frame_lifetime_joined : ∃ s,
    (system true ⟨false, 7, some 3⟩ [.join]).ReachableBy (InOrder true ⟨false, 7, some 3⟩) s ∧
      s.joined = true ∧ s.destroyed = 1 ∧ Lifetime ⟨false, 7, some 3⟩ s := by
  obtain ⟨s, hs, hp⟩ := (system true ⟨false, 7, some 3⟩ [.join]).exists_reachableBy_of_runIf
    (fun s a => decide (InOrder true ⟨false, 7, some 3⟩ s a))
    [.child, .child, .child, .owner, .child, .owner] (fun s => s.joined && s.destroyed = 1)
    (fun _ _ => of_decide_eq_true) rfl (by decide)
  simp only [Bool.and_eq_true, decide_eq_true_eq] at hp
  exact ⟨s, hs, hp.1, hp.2, frame_lifetime.1 s hs⟩

/-- The parent sees done() before the final awaiter has exchanged the flag, and destroys the task. -/
def destroyedEarly : List Act :=
  [.child, .child, .owner, .owner, .owner, .child]

/-- The body completes before the call of join. -/
def joinedLate : List Act :=
  [.child, .child, .child, .child, .owner]

theorem lifetime_broken :
    (¬ ∀ s, (system false ⟨false, 7, some 3⟩ [.coAwait]).Reachable s →
      Lifetime ⟨false, 7, some 3⟩ s) ∧
    ¬ ∀ s, (system true ⟨false, 7, some 3⟩ [.join]).Reachable s → Lifetime ⟨false, 7, some 3⟩ s := by
  constructor
  · intro h
    obtain ⟨s, hs, hp⟩ := (system false ⟨false, 7, some 3⟩ [.coAwait]).exists_reachable_of_run
      destroyedEarly (fun s => s.uaf) rfl (by decide)
    simp [(h s hs).noUaf] at hp
  · intro h
    obtain ⟨s, hs, hp⟩ := (system true ⟨false, 7, some 3⟩ [.join]).exists_reachable_of_run
      joinedLate (fun s => s.uaf) rfl (by decide)
    simp [(h s hs).noUaf] at hp

end Suil.Async.Task
