import Mathlib.Logic.Basic

/-! Labelled transition systems with an executable partial step function:
reachability under a condition on the steps, inductive invariants, replay of
a list of labels. -/
namespace Transition

/-- `next s a = none` when the step `a` cannot be taken in `s`. -/
structure System (σ α : Type*) where
  init : σ → Prop
  next : σ → α → Option σ

namespace System
variable {σ α : Type*} (S : System σ α) {ok ok' : σ → α → Prop} {I J : σ → Prop} {s t : σ}

/-- States reached from an initial one by steps that each meet `ok`. -/
inductive ReachableBy (ok : σ → α → Prop) : σ → Prop
  | init {s : σ} : S.init s → ReachableBy ok s
  | step {s t : σ} {a : α} : ReachableBy ok s → ok s a → S.next s a = some t → ReachableBy ok t

abbrev Reachable : σ → Prop := S.ReachableBy fun _ _ => True

/-- `I` holds initially and every step that meets `ok` preserves it. -/
structure Inductive (ok : σ → α → Prop) (I : σ → Prop) : Prop where
  init : ∀ s, S.init s → I s
  step : ∀ s a t, I s → ok s a → S.next s a = some t → I t

/-- `I` is preserved along steps whose starting state is known to satisfy `J`. -/
structure InductiveUnder (ok : σ → α → Prop) (J I : σ → Prop) : Prop where
  init : ∀ s, S.init s → I s
  step : ∀ s a t, J s → I s → ok s a → S.next s a = some t → I t

variable {S}

theorem ReachableBy.mono (h : ∀ s a, ok s a → ok' s a) (hs : S.ReachableBy ok s) :
    S.ReachableBy ok' s := by
  induction hs with
  | init h0 => exact .init h0
  | step _ hok hn ih => exact .step ih (h _ _ hok) hn

theorem ReachableBy.reachable (hs : S.ReachableBy ok s) : S.Reachable s :=
  hs.mono fun _ _ _ => trivial

theorem Inductive.holds (h : S.Inductive ok I) (hs : S.ReachableBy ok s) : I s := by
  induction hs with
  | init h0 => exact h.init _ h0
  | step _ hok hn ih => exact h.step _ _ _ ih hok hn

theorem InductiveUnder.holds (h : S.InductiveUnder ok J I)
    (hJ : ∀ s, S.ReachableBy ok s → J s) (hs : S.ReachableBy ok s) : I s := by
  induction hs with
  | init h0 => exact h.init _ h0
  | step hr hok hn ih => exact h.step _ _ _ (hJ _ hr) ih hok hn

variable (S)

/-- Take the steps `as` one after the other, as long as each of them passes the test. -/
def runIf (test : σ → α → Bool) (s : σ) : List α → Option σ
  | [] => some s
  | a :: as => if test s a then (S.next s a).bind fun t => runIf test t as else none

def run : σ → List α → Option σ := S.runIf fun _ _ => true

variable {S}

theorem runIf_reachableBy {test : σ → α → Bool} {as : List α}
    (hok : ∀ s a, test s a = true → ok s a) (hs : S.ReachableBy ok s)
    (hr : S.runIf test s as = some t) : S.ReachableBy ok t := by
  induction as generalizing s with
  | nil => exact Option.some.inj hr ▸ hs
  | cons a as ih =>
    simp only [runIf, Option.ite_none_right_eq_some] at hr
    obtain ⟨ht, hr⟩ := hr
    obtain ⟨u, hu, hr⟩ := Option.bind_eq_some_iff.mp hr
    exact ih (.step hs (hok _ _ ht) hu) hr

theorem run_reachable {as : List α} (hs : S.Reachable s) (hr : S.run s as = some t) :
    S.Reachable t :=
  runIf_reachableBy (fun _ _ _ => trivial) hs hr

theorem run_reachableBy {as : List α} (hok : ∀ a ∈ as, ∀ s, ok s a) (hs : S.ReachableBy ok s)
    (hr : S.run s as = some t) : S.ReachableBy ok t := by
  induction as generalizing s with
  | nil => exact Option.some.inj hr ▸ hs
  | cons a as ih =>
    obtain ⟨ha, has⟩ := List.forall_mem_cons.mp hok
    obtain ⟨u, hu, hr⟩ := Option.bind_eq_some_iff.mp hr
    exact ih has (.step hs (ha _) hu) hr

variable (S) in
/-- Some steps whose labels all satisfy `ok` lead from one state to the other. -/
inductive LeadsBy (ok : α → Prop) : σ → σ → Prop
  | refl (s : σ) : LeadsBy ok s s
  | head {s t u : σ} {a : α} : ok a → S.next s a = some t → LeadsBy ok t u → LeadsBy ok s u

variable (S) in
abbrev Leads : σ → σ → Prop := S.LeadsBy fun _ => True

theorem LeadsBy.trans {ok : α → Prop} {u : σ} (h : S.LeadsBy ok s t) (hu : S.LeadsBy ok t u) :
    S.LeadsBy ok s u := by
  induction h with
  | refl => exact hu
  | head ha hn _ ih => exact .head ha hn (ih hu)

theorem LeadsBy.mono {ok ok' : α → Prop} (h : S.LeadsBy ok s t) (hok : ∀ a, ok a → ok' a) :
    S.LeadsBy ok' s t := by
  induction h with
  | refl => exact .refl _
  | head ha hn _ ih => exact .head (hok _ ha) hn ih

variable (S)

/-- A replay from an initial state whose steps meet `ok` and which ends in a state
with the decidable property `p`. -/
theorem exists_reachableBy_of_runIf (test : σ → α → Bool) (as : List α) (p : σ → Bool)
    (hok : ∀ s a, test s a = true → ok s a) (hs : S.init s)
    (hr : (S.runIf test s as).map p = some true) : ∃ t, S.ReachableBy ok t ∧ p t = true := by
  obtain ⟨t, ht, hp⟩ := Option.map_eq_some_iff.mp hr
  exact ⟨t, runIf_reachableBy hok (.init hs) ht, hp⟩

theorem exists_reachable_of_run (as : List α) (p : σ → Bool) (hs : S.init s)
    (hr : (S.run s as).map p = some true) : ∃ t, S.Reachable t ∧ p t = true :=
  S.exists_reachableBy_of_runIf _ as p (fun _ _ _ => trivial) hs hr

variable {S} {ι τ β : Type*} {T : System τ β} {okT : τ → β → Prop} {u : τ}

/-- The part of a larger system that each of its steps leaves as it is or takes one step of. -/
theorem ReachableBy.part (part : ι → τ → σ) (hinit : ∀ u, T.init u → ∀ i, S.init (part i u))
    (hstep : ∀ u b v, okT u b → T.next u b = some v → ∀ i, part i v = part i u ∨
      ∃ a, ok (part i u) a ∧ S.next (part i u) a = some (part i v))
    (hu : T.ReachableBy okT u) (i : ι) : S.ReachableBy ok (part i u) := by
  induction hu with
  | init h0 => exact .init (hinit _ h0 i)
  | step _ hok hn ih =>
    cases hstep _ _ _ hok hn i with
    | inl heq => exact heq ▸ ih
    | inr h =>
      obtain ⟨a, ha, hn⟩ := h
      exact .step ih ha hn

/-- A forward simulation: whatever is reached here is reached there, up to the relation. -/
theorem ReachableBy.simulates {R : σ → τ → Prop} (hinit : ∀ s, S.init s → ∃ u, T.init u ∧ R s u)
    (hstep : ∀ s a t u, S.ReachableBy ok s → R s u → S.next s a = some t →
      ∃ b v, T.next u b = some v ∧ R t v)
    (hs : S.ReachableBy ok s) : ∃ u, T.Reachable u ∧ R s u := by
  induction hs with
  | init h0 =>
    obtain ⟨u, hu, hR⟩ := hinit _ h0
    exact ⟨u, .init hu, hR⟩
  | step hr _ hn ih =>
    obtain ⟨u, hu, hR⟩ := ih
    obtain ⟨b, v, hv, hR⟩ := hstep _ _ _ _ hr hR hn
    exact ⟨v, .step hu trivial hv, hR⟩

end System
end Transition
