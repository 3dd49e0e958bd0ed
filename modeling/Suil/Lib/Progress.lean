import Suil.Lib.Transition
import Mathlib.Order.WellFounded

/-! Infinite runs, and liveness by a rank: a goal is reached when every state short
of it has a rank that no step raises and that each helpful step lowers. -/
namespace Transition
namespace System

variable {σ α β : Type*} (S : System σ α)

/-- An infinite run. -/
structure Run where
  state : ℕ → σ
  act : ℕ → α
  init : S.init (state 0)
  step : ∀ n, S.next (state n) (act n) = some (state (n + 1))

variable {S}

theorem Run.reachable (r : S.Run) (n : ℕ) : S.Reachable (r.state n) := by
  induction n with
  | zero => exact .init r.init
  | succ n ih => exact .step ih trivial (r.step n)

/-- What goes on from a reachable state for ever is the end of a run. -/
theorem ReachableBy.exists_run {s : σ} (hs : S.Reachable s) (state : ℕ → σ) (act : ℕ → α)
    (hstart : state 0 = s) (hnext : ∀ k, S.next (state k) (act k) = some (state (k + 1))) :
    ∃ (r : S.Run) (n : ℕ), ∀ k, r.state (n + k) = state k ∧ r.act (n + k) = act k := by
  induction hs generalizing state act with
  | init h0 =>
    refine ⟨⟨state, act, hstart ▸ h0, hnext⟩, 0, fun k => ?_⟩
    rw [Nat.zero_add]
    exact ⟨rfl, rfl⟩
  | @step s t a _ _ hn ih =>
    -- the same one step earlier
    let state' : ℕ → σ := fun k => k.casesOn s state
    let act' : ℕ → α := fun k => k.casesOn a act
    have hnext' : ∀ k, S.next (state' k) (act' k) = some (state' (k + 1)) := by
      intro k
      cases k with
      | zero =>
        rw [← hstart] at hn
        exact hn
      | succ k => exact hnext k
    obtain ⟨r, n, hr⟩ := ih state' act' rfl hnext'
    refine ⟨r, n + 1, fun k => ?_⟩
    rw [Nat.add_assoc, Nat.add_comm 1 k]
    exact hr (k + 1)

/-- A scheduler that always finds a step makes a run that goes on as it says. -/
theorem exists_run_scheduled {s : σ} (good : ℕ → σ → α → Prop)
    (hgood : ∀ k u, S.Reachable u → ∃ a v, good k u a ∧ S.next u a = some v) (hs : S.Reachable s) :
    ∃ (r : S.Run) (n : ℕ), r.state n = s ∧
      ∀ k, good k (r.state (n + k)) (r.act (n + k)) := by
  choose act after hact hafter using hgood
  let reached : ℕ → {u // S.Reachable u} := fun k =>
    k.rec ⟨s, hs⟩ fun k u => ⟨after k u.1 u.2, .step u.2 trivial (hafter k u.1 u.2)⟩
  obtain ⟨r, n, hr⟩ := hs.exists_run (fun k => (reached k).1)
    (fun k => act k (reached k).1 (reached k).2) rfl fun k => hafter k (reached k).1 (reached k).2
  refine ⟨r, n, (hr 0).1, fun k => ?_⟩
  obtain ⟨hstate, hact'⟩ := hr k
  rw [hstate, hact']
  exact hact k (reached k).1 (reached k).2

variable (S) [Preorder β]

/-- `P b s` says that `s` is short of the goal `Q`, with rank `b`. -/
structure Ranked (help : α → Prop) (P : β → σ → Prop) (Q : σ → Prop) : Prop where
  enabled : ∀ b s, P b s → ∃ a t, help a ∧ S.next s a = some t
  helps : ∀ b s a t, P b s → help a → S.next s a = some t → Q t ∨ ∃ b' < b, P b' t
  keeps : ∀ b s a t, P b s → S.next s a = some t → Q t ∨ ∃ b' ≤ b, P b' t

variable {S} {help : α → Prop} {P : β → σ → Prop} {Q : σ → Prop} {b : β} {s : σ}

/-- The helpful steps alone lead to the goal. -/
theorem Ranked.leads [WellFoundedLT β] (h : S.Ranked help P Q) (hs : P b s) :
    ∃ t, S.LeadsBy help s t ∧ Q t := by
  induction b using WellFoundedLT.induction generalizing s with
  | ind b ih =>
    obtain ⟨a, t, ha, hn⟩ := h.enabled b s hs
    rcases h.helps b s a t hs ha hn with hq | ⟨b', hb', ht⟩
    · exact ⟨t, .head ha hn (.refl t), hq⟩
    · obtain ⟨u, hu, hq⟩ := ih b' hb' ht
      exact ⟨u, .head ha hn hu, hq⟩

/-- Until the goal is reached the rank is defined and has not risen. -/
theorem Ranked.persists (h : S.Ranked help P Q) (r : S.Run) {n : ℕ} (hs : P b (r.state n)) (k : ℕ) :
    (∃ m > n, Q (r.state m)) ∨ ∃ b' ≤ b, P b' (r.state (n + k)) := by
  induction k with
  | zero => exact .inr ⟨b, le_rfl, hs⟩
  | succ k ih =>
    rcases ih with hq | ⟨b', hb', ht⟩
    · exact .inl hq
    · rcases h.keeps b' _ _ _ ht (r.step (n + k)) with hq | ⟨b'', hb'', hu⟩
      · exact .inl ⟨n + k + 1, by omega, hq⟩
      · exact .inr ⟨b'', hb''.trans hb', hu⟩

/-- A run that goes on taking helpful steps reaches the goal. -/
theorem Ranked.eventually [WellFoundedLT β] (h : S.Ranked help P Q) (r : S.Run)
    (hfair : ∀ b n, P b (r.state n) → ∃ m ≥ n, help (r.act m)) {n : ℕ} (hs : P b (r.state n)) :
    ∃ m > n, Q (r.state m) := by
  induction b using WellFoundedLT.induction generalizing n with
  | ind b ih =>
    obtain ⟨m, hm, ha⟩ := hfair b n hs
    obtain ⟨k, rfl⟩ := Nat.exists_eq_add_of_le hm
    rcases h.persists r hs k with hq | ⟨b', hb', ht⟩
    · exact hq
    · rcases h.helps b' _ _ _ ht ha (r.step (n + k)) with hq | ⟨b'', hb'', hu⟩
      · exact ⟨n + k + 1, by omega, hq⟩
      · obtain ⟨m, hm, hq⟩ := ih b'' (hb''.trans_le hb') hu
        exact ⟨m, by omega, hq⟩

variable (S) in
/-- So many steps that each meet `ok` lead from one state to the other. -/
inductive Steps (ok : σ → α → Prop) : ℕ → σ → σ → Prop
  | refl (s : σ) : Steps ok 0 s s
  | tail {n : ℕ} {s t u : σ} {a : α} : Steps ok n s t → ok t a → S.next t a = some u →
      Steps ok (n + 1) s u

/-- Steps that each lower the rank are no more than the rank. -/
theorem Steps.le_rank {ok : σ → α → Prop} {I : σ → Prop} {rank : σ → ℕ} {n : ℕ} {t : σ}
    (hstep : ∀ s a t, I s → ok s a → S.next s a = some t → I t ∧ rank t < rank s)
    (h : S.Steps ok n s t) (hs : I s) : I t ∧ n + rank t ≤ rank s := by
  induction h with
  | refl s => exact ⟨hs, by omega⟩
  | tail _ hok hn ih =>
    obtain ⟨ht, hle⟩ := ih hs
    obtain ⟨hu, hlt⟩ := hstep _ _ _ ht hok hn
    exact ⟨hu, by omega⟩

theorem Steps.reachableBy {ok ok' : σ → α → Prop} {n : ℕ} {t : σ} (h : S.Steps ok n s t)
    (hok : ∀ s a, ok s a → ok' s a) (hs : S.ReachableBy ok' s) : S.ReachableBy ok' t := by
  induction h with
  | refl => exact hs
  | tail _ ha hn ih => exact .step (ih hs) (hok _ _ ha) hn

end System
end Transition
