import Suil.Async.Task
import Mathlib.Tactic.ByContra

/-! The handshake of a co_await with the end of a task that is not joinable: the flag tells
whoever exchanges it second to resume the parent. -/
namespace Suil.Async.Task
open Transition

variable {T : Type*} {cfg : Config T} {prog : List Op} {s s' : State T} {a : Act}

/-- The owner is in a co_await that has not been resumed. -/
def Owner.awaiting : Owner → Bool
  | .install | .exchange | .suspended => true
  | _ => false

/-- The flag is set by the owner that suspends and by the final awaiter; the final awaiter reads
the continuation only after the owner has suspended. -/
structure Handshake (cfg : Config T) (s : State T) : Prop where
  flag : s.flag = true ↔ s.owner = .suspended ∨ s.child = .readContinuation ∨ s.child = .finished
  suspended : s.owner = .suspended → s.child ≠ .finished
  reading : s.child = .readContinuation → s.owner = .suspended
  installed : s.owner = .exchange ∨ s.owner = .suspended → s.continuation = some cfg.parent
  count : s.transfers.length + s.owner.awaiting.toNat = s.awaits
  done : s.transfers ≠ [] → s.child.done = true
  handle : ∀ c, .finalAwaiter c ∈ s.transfers → c = cfg.parent
  empty : s.child = .body → s.data = none
  data : s.child ≠ .body → s.data = cfg.outcome
  notDestroy : s.child ≠ .destroy

theorem Handshake.start : Handshake cfg (.start prog) where
  flag := by simp [State.start]
  suspended := by simp [State.start]
  reading := by simp [State.start]
  installed := by simp [State.start]
  count := rfl
  done h := absurd rfl h
  handle := by simp [State.start]
  empty _ := rfl
  data h := absurd rfl h
  notDestroy := by simp [State.start]

/-- The coroutine runs on to its final suspend point. -/
theorem Handshake.advance {child : Child} {data : Option T} (h : Handshake cfg s)
    (hc : s.child.done = false) (hc' : child = .returned ∨ child = .finalSuspend)
    (hdata : data = cfg.outcome) : Handshake cfg { s.touch with data := data, child := child } := by
  have hs : s.child ≠ .readContinuation ∧ s.child ≠ .finished := by
    constructor
    · intro he
      simp [he, Child.done] at hc
    · intro he
      simp [he, Child.done] at hc
  have hs' : child ≠ .body ∧ child ≠ .readContinuation ∧ child ≠ .finished ∧ child ≠ .destroy := by
    rcases hc' with rfl | rfl <;> simp
  have hnone : s.transfers = [] := by
    by_contra hne
    exact absurd (h.done hne) (by simp [hc])
  exact { h with
    flag := by simpa [hs, hs'] using h.flag
    suspended := fun _ => hs'.2.2.1
    reading := fun he => absurd he hs'.2.1
    done := fun hne => absurd hnone hne
    empty := fun he => absurd he hs'.1
    data := fun _ => hdata
    notDestroy := hs'.2.2.2 }

theorem Handshake.child (h : Handshake cfg s) (ha : Step false cfg s .child s') :
    Handshake cfg s' := by
  cases ha with
  | complete hc =>
    exact h.advance (by simp [hc, Child.done]) (.inl rfl) (by simp [h.empty hc])
  | suspend hc =>
    exact h.advance (by simp [hc, Child.done]) (.inr rfl) (h.data (by simp [hc]))
  | release _ hj => cases hj
  | exchangeFirst hc _ hf =>
    have ho : s.owner ≠ .suspended := fun ho => by simpa [hf] using h.flag.mpr (.inl ho)
    exact { h with
      flag := by simp
      suspended := fun he => absurd he ho
      reading := by simp
      done := fun _ => rfl
      empty := by simp
      data := fun _ => h.data (by simp [hc])
      notDestroy := by simp }
  | exchangeSecond hc _ hf =>
    have ho : s.owner = .suspended := by simpa [hc] using h.flag.mp hf
    exact { h with
      flag := by simp
      suspended := by simp
      reading := fun _ => ho
      done := fun _ => rfl
      empty := by simp
      data := fun _ => h.data (by simp [hc])
      notDestroy := by simp }
  | @continuation c hc hk =>
    have ho := h.reading hc
    have hcont := h.installed (.inr ho)
    obtain rfl : c = cfg.parent := Option.some.inj (hk.symm.trans hcont)
    have hcount : s.transfers.length + 1 = s.awaits := by simpa [ho, Owner.awaiting] using h.count
    exact {
      flag := by simpa [State.transfer, State.touch] using h.flag.mpr (.inl ho)
      suspended := by simp [State.transfer]
      reading := by simp [State.transfer]
      installed := by simp [State.transfer]
      count := by simpa [State.transfer, State.touch, Owner.awaiting] using hcount
      done := fun _ => rfl
      handle := fun d hd => by
        rcases List.mem_append.mp hd with hd | hd
        · exact h.handle d hd
        · exact Transfer.finalAwaiter.inj (List.mem_singleton.mp hd)
      empty := by simp [State.transfer]
      data := fun _ => h.data (by simp [hc])
      notDestroy := by simp [State.transfer] }
  | missing hc hk =>
    have hcont := h.installed (.inr (h.reading hc))
    cases hk.symm.trans hcont
  | destroy hc => exact absurd hc h.notDestroy

/-- The owner goes on without having been suspended. -/
theorem Handshake.resumed {flag : Bool} {todo : List Op} {awaits : ℕ} {r : Transfer}
    (h : Handshake cfg s) (hd : s.child.done = true) (hread : s.child ≠ .readContinuation)
    (hflag : flag = true ↔ s.child = .finished) (hcount : s.transfers.length + 1 = awaits)
    (hr : ∀ c, r ≠ .finalAwaiter c) :
    Handshake cfg ({ s.touch with flag := flag, todo := todo, awaits := awaits }.transfer r) where
  flag := by simpa [State.transfer, State.touch, hread] using hflag
  suspended := by simp [State.transfer]
  reading he := absurd he hread
  installed := by simp [State.transfer]
  count := by simpa [State.transfer, State.touch, Owner.awaiting] using hcount
  done _ := hd
  handle c hc := by
    rcases List.mem_append.mp hc with hc | hc
    · exact h.handle c hc
    · exact absurd (List.mem_singleton.mp hc).symm (hr c)
  empty := h.empty
  data := h.data
  notDestroy := h.notDestroy

/-- The owner moves on to where it is neither suspended nor awaiting anything new. -/
theorem Handshake.move {owner : Owner} {continuation : Option ℕ} {awaits : ℕ} (h : Handshake cfg s)
    (hs : s.owner ≠ .suspended) (ho : owner ≠ .suspended)
    (hk : owner = .exchange → continuation = some cfg.parent)
    (hcount : s.transfers.length + owner.awaiting.toNat = awaits) (ht : s'.transfers = s.transfers)
    (hf : s'.flag = s.flag) (hc : s'.child = s.child) (hd : s'.data = s.data)
    (hcont : s'.continuation = continuation) (howner : s'.owner = owner) (ha : s'.awaits = awaits) :
    Handshake cfg s' where
  flag := by simpa [hf, hc, howner, hs, ho] using h.flag
  suspended he := absurd (howner ▸ he) ho
  reading he := absurd (h.reading (hc ▸ he)) hs
  installed he := by
    rw [howner] at he
    rw [hcont]
    exact hk (he.resolve_right ho)
  count := by rw [ht, howner, ha, hcount]
  done := by rw [ht, hc]; exact h.done
  handle := by rw [ht]; exact h.handle
  empty := by rw [hc, hd]; exact h.empty
  data := by rw [hc, hd]; exact h.data
  notDestroy := by rw [hc]; exact h.notDestroy

theorem Handshake.owner (h : Handshake cfg s) (ha : Step false cfg s .owner s') :
    Handshake cfg s' := by
  have hcount := h.count
  cases ha with
  | destructor ho _ _ =>
    have hs : s.owner ≠ .suspended := by simp [ho]
    exact h.move hs (by simp) (by simp) (by simpa [ho, Owner.awaiting] using hcount) rfl rfl rfl rfl rfl rfl rfl
  | forget _ _ hj => cases hj
  | join _ _ hj _ => cases hj
  | noop _ hj => cases hj
  | access ho _ _ =>
    have hs : s.owner ≠ .suspended := by simp [ho]
    exact h.move hs hs (by simp [ho]) hcount rfl rfl rfl rfl rfl rfl rfl
  | ready ho _ hd =>
    have hread : s.child ≠ .readContinuation := fun hc => by simpa [ho] using h.reading hc
    have hflag : s.flag = true ↔ s.child = .finished := by simpa [ho, hread] using h.flag
    refine h.resumed hd hread hflag ?_ (by simp)
    simpa [ho, Owner.awaiting] using hcount
  | notReady ho _ _ =>
    have hs : s.owner ≠ .suspended := by simp [ho]
    refine h.move hs (by simp) (by simp) ?_ rfl rfl rfl rfl rfl rfl rfl
    simpa [ho, Owner.awaiting] using hcount
  | install ho _ =>
    have hs : s.owner ≠ .suspended := by simp [ho]
    refine h.move hs (by simp) (fun _ => rfl) ?_ rfl rfl rfl rfl rfl rfl rfl
    simpa [ho, Owner.awaiting] using hcount
  | flagSecond ho hf =>
    have hread : s.child ≠ .readContinuation := fun hc => by simpa [ho] using h.reading hc
    have hfin : s.child = .finished := by simpa [ho, hread] using h.flag.mp hf
    refine h.resumed (by simp [hfin, Child.done]) hread (by simp [hfin]) ?_ (by simp)
    simpa [ho, Owner.awaiting] using hcount
  | flagFirst ho hf =>
    have hfin : s.child ≠ .finished := fun hc => by simpa [hf] using h.flag.mpr (.inr (.inr hc))
    exact { h with
      flag := by simp
      suspended := fun _ => hfin
      reading := fun _ => rfl
      installed := fun _ => h.installed (.inl ho)
      count := by simpa [ho, Owner.awaiting] using hcount }
  | resumeVoid ho _ =>
    have hs : s.owner ≠ .suspended := by simp [ho]
    refine h.move hs (by simp) (by simp) ?_ rfl rfl rfl rfl rfl rfl rfl
    simpa [ho, Owner.awaiting] using hcount
  | resume ho _ =>
    have hs : s.owner ≠ .suspended := by simp [ho]
    refine h.move hs (by simp) (by simp) ?_ rfl rfl rfl rfl rfl rfl rfl
    simpa [ho, Owner.awaiting] using hcount

theorem handshake_inductive :
    (system false cfg prog).Inductive (fun _ _ => True) (Handshake cfg) where
  init := by
    rintro _ rfl
    exact .start
  step s a t h _ ha := by
    have hstep := next_step ha
    cases a with
    | child => exact h.child hstep
    | owner => exact h.owner hstep

/-- What holds of every state: a co_await is resumed at most once, and exactly once when
both sides have taken their steps, after the body has stored its data, by the handle that the
parent has installed. -/
structure Resumed (cfg : Config T) (s : State T) : Prop where
  atMost : s.transfers.length ≤ s.awaits
  exactly : s.child = .finished → s.owner ≠ .install → s.owner ≠ .exchange →
    s.owner ≠ .suspended ∧ s.transfers.length = s.awaits
  stored : s.transfers ≠ [] → s.child.done = true ∧ s.data = cfg.outcome
  handle : ∀ c, .finalAwaiter c ∈ s.transfers → c = cfg.parent

theorem co_await_resumed (hs : (system false cfg prog).Reachable s) : Resumed cfg s := by
  have h := handshake_inductive.holds hs
  have hcount := h.count
  refine ⟨by omega, fun hc hi he => ?_, fun ht => ⟨h.done ht, h.data fun hb => ?_⟩, h.handle⟩
  · have hsusp : s.owner ≠ .suspended := fun ho => h.suspended ho hc
    refine ⟨hsusp, ?_⟩
    have hno : s.owner.awaiting = false := by
      cases ho : s.owner <;> simp_all [Owner.awaiting]
    simpa [hno] using hcount
  · have hd := h.done ht
    simp [hb, Child.done] at hd

/-- The parent suspends first and the final awaiter resumes it. -/
theorem co_await_resumed_suspended :
    ∃ s, (system false ⟨false, 7, some 3⟩ [.coAwait]).Reachable s ∧ s.child = .finished ∧
      s.transfers = [.finalAwaiter 7] ∧ Resumed ⟨false, 7, some 3⟩ s := by
  obtain ⟨s, hs, hp⟩ := (system false ⟨false, 7, some 3⟩ [.coAwait]).exists_reachable_of_run
    [.owner, .child, .owner, .child, .owner, .child, .child]
    (fun s => s.child = .finished ∧ s.transfers = [.finalAwaiter 7]) rfl (by decide)
  obtain ⟨hc, ht⟩ := of_decide_eq_true hp
  exact ⟨s, hs, hc, ht, co_await_resumed hs⟩

end Suil.Async.Task
