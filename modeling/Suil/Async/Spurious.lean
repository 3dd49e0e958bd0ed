import Suil.Async.Wakeup
import Suil.Async.ManualReset
import Suil.Async.Expiry
import Suil.Async.Timers

/-! The compare-exchanges that are not retried: `signal`, `remove`, the epoll dispatch,
`fireExpiredTimers` and `ManualResetEvent::reset`. For each, what becomes of its effect when it
fails spuriously. -/
namespace Suil.Async.Spurious
open Transition DoublyLinked

section Signal
open Wakeup
variable {s t u : Wakeup.State} {p q : ℕ} {k : After}

/-- Between the compare-exchange of `signal()` and its last store. -/
def signalling : ProducerPc → Bool
  | .write _ | .clear _ => true
  | _ => false

/-- The call is over, or only waits for the thread to end. -/
def quiet : ProducerPc → Bool
  | .returned | .join => true
  | _ => false

theorem quiet_pc (k : After) : quiet k.pc = true := by cases k <;> rfl

/-- `_signaling` is set only on behalf of a call that will clear it. -/
def Signaller (s : Wakeup.State) : Prop := s.signaling = true → ∃ q, signalling (s.producers q)

/-- A producer that was not signalling takes a step. -/
theorem Signaller.goto {pc : ProducerPc} (h : Signaller s) (hp : signalling (s.producers p) = false)
    (hs : t.signaling = s.signaling) (ht : t.producers = (s.goto p pc).producers) :
    Signaller t := by
  intro hsig
  obtain ⟨q, hq⟩ := h (hs ▸ hsig)
  have hne : q ≠ p := by
    rintro rfl
    rw [hp] at hq
    cases hq
  exact ⟨q, by rw [ht, goto_producers, if_neg hne]; exact hq⟩

theorem Signaller.producer (h : Signaller s) (hn : runProducer s p = some t) : Signaller t := by
  unfold runProducer at hn
  cases hp : s.producers p with
  | returned =>
    rw [hp] at hn
    cases hn
  | enqueue coro =>
    rw [hp] at hn
    obtain rfl := Option.some.inj hn
    exact h.goto (by rw [hp]; rfl) rfl rfl
  | insert timer =>
    rw [hp] at hn
    obtain rfl := Option.some.inj hn
    exact h.goto (by rw [hp]; rfl) rfl rfl
  | deactivate =>
    rw [hp] at hn
    obtain rfl := Option.some.inj hn
    exact h.goto (by rw [hp]; rfl) rfl rfl
  | compareExchange k =>
    rw [hp] at hn
    dsimp only at hn
    split_ifs at hn with hsig
    · obtain rfl := Option.some.inj hn
      exact h.goto (by rw [hp]; rfl) rfl rfl
    · obtain rfl := Option.some.inj hn
      exact fun _ => ⟨p, by simp [signalling]⟩
  | write k =>
    rw [hp] at hn
    obtain rfl := Option.some.inj hn
    exact fun _ => ⟨p, by simp [signalling]⟩
  | clear k =>
    rw [hp] at hn
    obtain rfl := Option.some.inj hn
    exact fun hsig => absurd hsig Bool.false_ne_true
  | join =>
    rw [hp] at hn
    dsimp only at hn
    split_ifs at hn
    obtain rfl := Option.some.inj hn
    exact h.goto (by rw [hp]; rfl) rfl rfl

/-- The loop thread neither signals nor writes the eventfd. -/
theorem loop_frame {now : Int} (hn : runLoop s now = some t) :
    t.signaling = s.signaling ∧ t.producers = s.producers ∧ t.evfd ≤ s.evfd := by
  unfold runLoop at hn
  split at hn
  case h_3 | h_14 => cases hn
  case h_1 | h_2 | h_4 | h_5 | h_7 | h_8 | h_10 | h_11 | h_12 =>
    obtain rfl := Option.some.inj hn
    exact ⟨rfl, rfl, Nat.le_refl _⟩
  case h_6 =>
    split at hn
    · obtain rfl := Option.some.inj hn
      exact ⟨rfl, rfl, Nat.le_refl _⟩
    · obtain rfl := Option.some.inj hn
      exact ⟨rfl, rfl, Nat.le_refl _⟩
  case h_9 =>
    split_ifs at hn
    obtain rfl := Option.some.inj hn
    exact ⟨rfl, rfl, Nat.zero_le _⟩
  case h_13 =>
    split at hn
    · obtain rfl := Option.some.inj hn
      exact ⟨rfl, rfl, Nat.le_refl _⟩
    · split_ifs at hn
      · obtain rfl := Option.some.inj hn
        exact ⟨rfl, rfl, Nat.le_refl _⟩
      · obtain rfl := Option.some.inj hn
        exact ⟨rfl, rfl, Nat.le_refl _⟩

theorem wake_frame {ready : List Ready} (hn : wake s ready = some t) :
    t.signaling = s.signaling ∧ t.producers = s.producers ∧ t.evfd ≤ s.evfd := by
  unfold wake at hn
  split at hn
  · split_ifs at hn
    obtain rfl := Option.some.inj hn
    exact ⟨rfl, rfl, Nat.le_refl _⟩
  · cases hn

theorem signaller_inductive : Wakeup.system.Inductive (fun _ _ => True) Signaller where
  init s hs hsig := by
    rw [hs] at hsig
    exact absurd hsig Bool.false_ne_true
  step s a t h _ hn := by
    cases a with
    | call p c =>
      change (if s.producers p = .returned then some (s.goto p c.start) else none) = some t at hn
      split_ifs at hn with hp
      obtain rfl := Option.some.inj hn
      exact h.goto (by rw [hp]; rfl) rfl rfl
    | run p => exact h.producer hn
    | spurious p =>
      obtain ⟨k, hp, rfl⟩ := spurious_cases hn
      exact h.goto (by rw [hp]; rfl) rfl rfl
    | wake ready =>
      obtain ⟨hsignal, hproducers, -⟩ := wake_frame hn
      intro hsig
      rw [hproducers]
      exact h (hsignal ▸ hsig)
    | loop now =>
      obtain ⟨hsignal, hproducers, -⟩ := loop_frame hn
      intro hsig
      rw [hproducers]
      exact h (hsignal ▸ hsig)

/-- No call of `schedule`, `add` or `abort` begins. -/
def noCall : Wakeup.Act → Prop
  | .call _ _ => False
  | _ => True

/-- Nobody is left that writes the eventfd. -/
theorem quiet_step {a : Wakeup.Act} (hquiet : ∀ q, quiet (s.producers q) = true) (ha : noCall a)
    (hn : Wakeup.system.next s a = some t) :
    (∀ q, quiet (t.producers q) = true) ∧ t.evfd ≤ s.evfd := by
  cases a with
  | call p c => exact absurd ha id
  | run p =>
    change runProducer s p = some t at hn
    have hp := hquiet p
    unfold runProducer at hn
    cases hpc : s.producers p with
    | returned =>
      rw [hpc] at hn
      cases hn
    | join =>
      rw [hpc] at hn
      dsimp only at hn
      split_ifs at hn
      obtain rfl := Option.some.inj hn
      refine ⟨fun q => ?_, Nat.le_refl _⟩
      rw [goto_producers]
      split_ifs
      · rfl
      · exact hquiet q
    | enqueue | insert | deactivate | compareExchange | write | clear =>
      rw [hpc] at hp
      cases hp
  | spurious p =>
    obtain ⟨k, hpc, -⟩ := spurious_cases hn
    have hp := hquiet p
    rw [hpc] at hp
    cases hp
  | wake ready =>
    obtain ⟨-, hproducers, hle⟩ := wake_frame hn
    exact ⟨fun q => hproducers ▸ hquiet q, hle⟩
  | loop now =>
    obtain ⟨-, hproducers, hle⟩ := loop_frame hn
    exact ⟨fun q => hproducers ▸ hquiet q, hle⟩

theorem quiet_leads (h : Wakeup.system.LeadsBy noCall t u)
    (hquiet : ∀ q, quiet (t.producers q) = true) : u.evfd ≤ t.evfd := by
  induction h with
  | refl => exact Nat.le_refl _
  | head ha hn _ ih =>
    obtain ⟨hquiet', hle⟩ := quiet_step hquiet ha hn
    exact (ih hquiet').trans hle

/-- The compare-exchange of `signal()`. -/
def signalCas (p : ℕ) (spurious : Bool) : Wakeup.Act := if spurious then .spurious p else .run p

/-- A call without another signaller writes the eventfd. -/
def Signals (s : Wakeup.State) (t : Wakeup.State) : Prop :=
  ∃ u, Wakeup.system.LeadsBy noCall t u ∧ s.evfd < u.evfd

theorem signal_iff (hs : Wakeup.system.Reachable s) (hp : s.producers p = .compareExchange k)
    (halone : ∀ q, q ≠ p → quiet (s.producers q) = true) {spurious : Bool}
    (hn : Wakeup.system.next s (signalCas p spurious) = some t) :
    Signals s t ↔ spurious = false := by
  have hsig : s.signaling = false := by
    by_contra hne
    obtain ⟨q, hq⟩ := signaller_inductive.holds hs (Bool.not_eq_false _ ▸ hne)
    by_cases hqp : q = p
    · rw [hqp, hp] at hq
      cases hq
    · have hquiet := halone q hqp
      cases hpc : s.producers q <;> simp_all [quiet, signalling]
  cases spurious with
  | false =>
    change runProducer s p = some t at hn
    rw [runProducer, hp, hsig] at hn
    obtain rfl := Option.some.inj hn
    have hwrite : ∀ v : Wakeup.State, v.producers p = .write k →
        Wakeup.system.next v (.run p) = some { v.goto p (.clear k) with evfd := v.evfd + 1 } := by
      intro v hv
      show runProducer v p = _
      rw [runProducer, hv]
    have hnext := hwrite { s.goto p (.write k) with signaling := true } (by simp)
    have hcall : noCall (.run p) := trivial
    exact iff_of_true ⟨_, .head hcall hnext (.refl _), Nat.lt_succ_self s.evfd⟩ rfl
  | true =>
    obtain ⟨k', hp', rfl⟩ := spurious_cases hn
    obtain rfl := ProducerPc.compareExchange.inj (hp.symm.trans hp')
    have hquiet : ∀ q, quiet ((s.goto p k.pc).producers q) = true := by
      intro q
      rw [goto_producers]
      by_cases hqp : q = p
      · rw [if_pos hqp]
        exact quiet_pc k
      · rw [if_neg hqp]
        exact halone q hqp
    refine iff_of_false ?_ Bool.noConfusion
    rintro ⟨u, hu, hlt⟩
    have hle := quiet_leads hu hquiet
    exact absurd hlt (Nat.not_lt.mpr hle)

end Signal

section Remove
open Thread
variable {s s' u : Sys} {act : Thread.Act} {t : ℕ} {v w : Waiter}

/-- Nobody is about to abandon the object. -/
structure Kept (s : Sys) (w : Waiter) : Prop where
  pc : ∀ t, s.pc (.thread t) ≠ .removing w
  state : (s.cells w).state ≠ .abandoned

/-- No call of `remove` on the object begins. -/
def noRemove (w : Waiter) : Thread.Act → Prop
  | .remove _ v => v ≠ w
  | _ => True

theorem Kept.step (h : Kept s w) (ha : noRemove w act) (hn : Step s act s') : Kept s' w := by
  obtain ⟨hpc, hst⟩ := h
  cases hn with
  | @removeCall t v hidle =>
    refine ⟨fun b => ?_, hst⟩
    have hb := hpc b
    have hv : v ≠ w := ha
    simp only [Sys.goto_pc, Function.update_apply]
    grind
  | @removeWin t v hremoving hsched =>
    have hv : v ≠ w := fun heq => hpc t (heq ▸ hremoving)
    refine ⟨fun b => ?_, ?_⟩
    · have hb := hpc b
      simp only [win, Sys.goto_pc, Sys.setWaits_pc, Sys.setState_pc, Function.update_apply]
      grind
    · simp only [win, Sys.goto_cells, Sys.setWaits_cells, Sys.setState_cells,
        Function.update_of_ne hv.symm]
      exact hst
  | _ =>
    refine ⟨fun b => ?_, ?_⟩
    · have := hpc b
      simp [Function.update_apply, addTarget, addStore, win, resetTimer, Thread.resume] at this ⊢
      grind [linkedPc_ne_removing, storedPc_ne_removing]
    · simp [Function.update_apply, addTarget, addStore, win, resetTimer, Thread.resume] at hst ⊢
      grind [resumedCell_state, expiredState_ne]

theorem Kept.leads (h : Thread.system.LeadsBy (noRemove w) s u) (hs : Kept s w) : Kept u w := by
  induction h with
  | refl => exact hs
  | head ha hn _ ih => exact ih (hs.step ha (next_step hn))

/-- The object is abandoned without another call of `remove`. -/
def Abandons (s : Sys) (w : Waiter) : Prop :=
  ∃ u, Thread.system.LeadsBy (noRemove w) s u ∧ (u.cells w).state = .abandoned

theorem remove_iff (hpc : s.pc (.thread t) = .removing w)
    (halone : ∀ b, b ≠ t → s.pc (.thread b) ≠ .removing w)
    (hst : (s.cells w).state = .scheduled) {spurious : Bool}
    (hn : Thread.next s (.removeCas t spurious) = some s') :
    Abandons s' w ↔ spurious = false := by
  change removeCas s t spurious = some s' at hn
  rw [removeCas, hpc] at hn
  dsimp only at hn
  cases spurious with
  | false =>
    have hwin : ¬ (false = true ∨ (s.cells w).state ≠ .scheduled) := by simp [hst]
    rw [if_neg hwin] at hn
    obtain rfl := Option.some.inj hn
    refine iff_of_true ⟨_, .refl _, ?_⟩ rfl
    simp [win]
  | true =>
    rw [if_pos (.inl rfl)] at hn
    obtain rfl := Option.some.inj hn
    refine iff_of_false ?_ Bool.noConfusion
    rintro ⟨u, hu, habandoned⟩
    have hkept : Kept (s.goto (.thread t) .idle) w := by
      refine ⟨fun b => ?_, ?_⟩
      · rw [Sys.goto_pc]
        by_cases hb : b = t
        · rw [hb, Function.update_self]
          exact Pc.noConfusion
        · have hne : Agent.thread b ≠ .thread t := fun heq => hb (Agent.thread.inj heq)
          rw [Function.update_of_ne hne]
          exact halone b hb
      · rw [Sys.goto_cells, hst]
        exact State.noConfusion
    exact (hkept.leads hu).state habandoned

end Remove

section Expire
open Thread
variable {s t u : Firing} {a : FireStep} {it w : Waiter}

/-- The loop neither holds the timer nor will find it in the list. -/
structure Dropped (s : Firing) (it : Waiter) : Prop where
  out : it ∉ s.run.order
  popped : s.run.sys.pc .loop ≠ .popped it
  finishing : ∀ p st, s.run.sys.pc .loop ≠ .finishing it p st

/-- The timer is not added. -/
def noAdd (it : Waiter) : FireStep → Prop
  | .edit (.add w _) => w ≠ it
  | _ => True

theorem Dropped.idle (hout : it ∉ s.run.order) (hpc : s.run.sys.pc .loop = .idle) :
    Dropped s it where
  out := hout
  popped := by
    rw [hpc]
    exact Pc.noConfusion
  finishing p st := by
    rw [hpc]
    exact Pc.noConfusion

theorem not_mem_edit {r r' : Run} {e : Edit} (hout : it ∉ r.order) (ha : noAdd it (.edit e))
    (hn : r.edit e = some r') : it ∉ r'.order := by
  cases Run.edited hn with
  | set | reset => exact hout
  | @add w =>
    have hw : w ≠ it := ha
    simp [hout, hw.symm]
  | cancel => exact fun hm => hout (List.mem_of_mem_filter hm)

theorem Dropped.step (h : Dropped s it) (hs : s.Loop) (ha : noAdd it a)
    (hn : firing.next s a = some t) : Dropped t it := by
  change s.next a = some t at hn
  cases a with
  | pop =>
    rcases hs.pop_cases hn with ⟨rfl, -⟩ | ⟨w, hfirst, -, rfl⟩
    · exact ⟨h.out, h.popped, h.finishing⟩
    · have hw : w ≠ it := fun heq => h.out (heq ▸ (hs.listed.first_least hfirst).1)
      refine ⟨fun hm => h.out (List.mem_of_mem_filter hm), ?_, fun p st => ?_⟩
      · rw [goto_self]
        exact fun heq => hw (Pc.popped.inj heq)
      · rw [goto_self]
        exact Pc.noConfusion
  | expire spurious =>
    obtain ⟨w, sys, hpc, hexpire, rfl⟩ := Firing.expire_next hn
    have hstands := hs.stands
    rw [hpc] at hstands
    obtain ⟨-, -, htarget, -⟩ := hstands
    have hw : w ≠ it := fun heq => h.popped (heq ▸ hpc)
    cases expire_step hexpire with
    | expireLose hpc' => exact .idle h.out (by rw [goto_self])
    | @expireWin w' v hpc' htarget' =>
      obtain rfl := Pc.popped.inj (hpc.symm.trans hpc')
      obtain rfl := Option.some.inj (htarget.symm.trans htarget')
      refine ⟨h.out, ?_, fun p st => ?_⟩
      · rw [goto_self]
        exact Pc.noConfusion
      · rw [goto_self]
        exact fun heq => hw (Pc.finishing.inj heq).1
  | finish =>
    obtain ⟨horder, w, p, st, hpc, hcase⟩ := Firing.finish_cases hn
    have hw : w ≠ it := fun heq => h.finishing p st (heq ▸ hpc)
    have hout : it ∉ t.run.order := horder ▸ h.out
    rcases hcase with hidle | ⟨st', hpc'⟩
    · exact .idle hout hidle
    · refine ⟨hout, ?_, fun q st => ?_⟩
      · rw [hpc']
        exact Pc.noConfusion
      · rw [hpc']
        exact fun heq => hw (Pc.finishing.inj heq).1
  | edit e =>
    obtain ⟨-, run, hedit, rfl⟩ := Firing.edit_next hn
    obtain ⟨hpc, -⟩ := edit_frame hedit
    refine ⟨not_mem_edit h.out ha hedit, ?_, fun p st => ?_⟩
    · rw [hpc]
      exact h.popped
    · rw [hpc]
      exact h.finishing p st
  | back =>
    obtain ⟨-, rfl⟩ := Firing.back_next hn
    exact ⟨h.out, h.popped, h.finishing⟩

theorem Dropped.leads (h : firing.LeadsBy (noAdd it) s u) (hs : s.Loop) (hd : Dropped s it) :
    Dropped u it := by
  induction h with
  | refl => exact hd
  | head ha hn _ ih => exact ih (loop_inductive.step _ _ _ hs trivial hn) (hd.step hs ha hn)

/-- The loop comes to `coro.resume()` for the timer, which is not added again. -/
def Completes (s : Firing) (it : Waiter) : Prop :=
  ∃ u, firing.LeadsBy (noAdd it) s u ∧ u.run.sys.pc .loop = .finishing it .timer .resume

theorem completes_of_won {st : FinishStage} (hst : st = .del ∨ st = .resume)
    (hpc : s.run.sys.pc .loop = .finishing it .timer st) : Completes s it := by
  rcases hst with rfl | rfl
  · have hfinish : Thread.finish s.run.sys .loop =
        some ((delEntry s.run.sys it).goto .loop (.finishing it .timer .resume)) := by
      rw [Thread.finish, hpc]
    have hnext : firing.next s .finish = some { s with
        run := ⟨(delEntry s.run.sys it).goto .loop (.finishing it .timer .resume), s.run.order⟩ } := by
      show s.next .finish = _
      rw [Firing.next, hpc]
      show (Thread.finish s.run.sys .loop).map _ = _
      rw [hfinish]
      rfl
    have hadd : noAdd it .finish := trivial
    exact ⟨_, .head hadd hnext (.refl _), goto_self _ _ _⟩
  · exact ⟨s, .refl s, hpc⟩

theorem expire_iff (hs : firing.Reachable s) (hpc : s.run.sys.pc .loop = .popped it)
    (hmeets : Firing.meets s.run.sys it = true) {spurious : Bool}
    (hn : firing.next s (.expire spurious) = some t) : Completes t it ↔ spurious = false := by
  have hloop := loop_inductive.holds hs
  have hloop' := loop_inductive.step _ _ _ hloop trivial hn
  have hstands := hloop.stands
  rw [hpc] at hstands
  obtain ⟨-, hout, htarget, -⟩ := hstands
  change s.next (.expire spurious) = some t at hn
  rw [Firing.next, hpc] at hn
  obtain ⟨sys, hexpire, rfl⟩ := Option.map_eq_some_iff.mp hn
  have hst : (s.run.sys.cells it).state = .scheduled := by
    rw [Firing.meets, htarget, Option.any_some] at hmeets
    exact of_decide_eq_true hmeets
  cases expire_step hexpire with
  | @expireLose it' w _ hpc' htarget' hlose =>
    obtain rfl := Pc.popped.inj (hpc.symm.trans hpc')
    obtain rfl := Option.some.inj (htarget.symm.trans htarget')
    have hspurious : spurious = true := hlose.resolve_right fun hne => hne hst
    subst hspurious
    refine iff_of_false ?_ Bool.noConfusion
    rintro ⟨u, hu, hresume⟩
    have hidle := goto_self s.run.sys .loop .idle
    exact (Dropped.leads hu hloop' (.idle hout hidle)).finishing _ _ hresume
  | @expireWin it' w hpc' htarget' _ =>
    obtain rfl := Pc.popped.inj (hpc.symm.trans hpc')
    obtain rfl := Option.some.inj (htarget.symm.trans htarget')
    refine iff_of_true ?_ rfl
    refine completes_of_won ?_ (goto_self _ _ _)
    cases it with
    | event e => exact .inl rfl
    | delay d => exact .inr rfl

end Expire

section Dispatch
open Thread
variable {s s' t u : Sys} {act : Thread.Act} {w : Waiter} {r : Thread.Ready} {n : ℕ}

/-- Who ended the `n`-th wait on the object. -/
def winners (s : Sys) (w : Waiter) (n : ℕ) : List Party :=
  ((s.waits w).drop ((s.waits w).length - n)).head?.elim [] Wait.wins

/-- Nothing but a report ends the wait. -/
def EndsByReport (s : Sys) (w : Waiter) (n : ℕ) : Prop :=
  ∀ u, Thread.system.Leads s u → ∀ p ∈ winners u w n, ∃ flags, p = .epoll flags

/-- The Event of the report waits, and is registered as it was reported. -/
structure Waiting (s : Sys) (r : Thread.Ready) : Prop where
  scheduled : (s.cells (.event r.ptr)).state = .scheduled
  registered : (s.epoll r.fd).any (fun en => en.ptr = r.ptr && r.flags.fits en.mask) = true

/-- No other Event is about the descriptor. -/
def Sole (s : Sys) (e : ℕ) : Prop := ∀ e', s.fd e' = s.fd e → e' = e

/-- In every continuation the `n`-th wait goes on, as it is registered, until somebody ends it. -/
def WaitsOn (s : Sys) (r : Thread.Ready) (n : ℕ) : Prop :=
  ∀ u, Thread.system.Leads s u →
    Waiting u r ∧ (u.waits (.event r.ptr)).length = n ∨ ∃ p, winners u (.event r.ptr) n = [p]

theorem winners_head (h : (s.waits w).length = n) :
    winners s w n = (s.waits w).head?.elim [] Wait.wins := by
  rw [winners, h, Nat.sub_self, List.drop_zero]

theorem winners_cons {x : Wait} (h : s'.waits w = x :: s.waits w) (hn : n ≤ (s.waits w).length) :
    winners s' w n = winners s w n := by
  rw [winners, winners, h, List.length_cons, Nat.succ_sub hn, List.drop_succ_cons]

/-- A step on the wait under way leaves those before it as they are. -/
theorem winners_modifyHead {f : Wait → Wait} (h : s'.waits w = (s.waits w).modifyHead f)
    (hn : n < (s.waits w).length) : winners s' w n = winners s w n := by
  obtain ⟨x, rest, hwaits⟩ := List.exists_cons_of_length_pos (Nat.zero_lt_of_lt hn)
  have hle : n ≤ rest.length := by
    rw [hwaits, List.length_cons] at hn
    exact Nat.lt_succ_iff.mp hn
  rw [hwaits, List.modifyHead_cons] at h
  rw [winners, winners, h, hwaits, List.length_cons, List.length_cons, Nat.succ_sub hle,
    List.drop_succ_cons, List.drop_succ_cons]

/-- The record of a wait loses nothing, and its winner comes in while the object is scheduled. -/
structure Grows (s s' : Sys) (w : Waiter) (n : ℕ) : Prop where
  length : (s.waits w).length ≤ (s'.waits w).length
  winners : winners s' w n = winners s w n ∨ (s.cells w).state = .scheduled ∧
    (s.waits w).length = n ∧ ∃ p, winners s' w n = winners s w n ++ [p]

theorem Grows.same (h : s'.waits w = s.waits w) : Grows s s' w n where
  length := h ▸ Nat.le_refl _
  winners := by
    left
    unfold Spurious.winners
    rw [h]

theorem Grows.cons {x : Wait} (h : s'.waits w = x :: s.waits w) (hn : n ≤ (s.waits w).length) :
    Grows s s' w n where
  length := by
    rw [h]
    exact Nat.le_succ _
  winners := .inl (winners_cons h hn)

theorem Grows.keeps {f : Wait → Wait} (h : s'.waits w = (s.waits w).modifyHead f)
    (hf : ∀ x, (f x).wins = x.wins) (hn : n ≤ (s.waits w).length) : Grows s s' w n where
  length := by rw [h, List.length_modifyHead]
  winners := by
    left
    rcases Nat.lt_or_eq_of_le hn with hlt | heq
    · exact winners_modifyHead h hlt
    · rw [winners_head (by rw [h, List.length_modifyHead, heq]), winners_head heq.symm, h]
      cases s.waits w with
      | nil => rfl
      | cons x rest => exact hf x

theorem Grows.wins {p : Party} (h : s'.waits w =
      (s.waits w).modifyHead fun x => { x with wins := x.wins ++ [p] })
    (hst : (s.cells w).state = .scheduled) (hn : n ≤ (s.waits w).length) (hpos : s.waits w ≠ []) :
    Grows s s' w n where
  length := by rw [h, List.length_modifyHead]
  winners := by
    rcases Nat.lt_or_eq_of_le hn with hlt | heq
    · exact .inl (winners_modifyHead h hlt)
    · refine .inr ⟨hst, heq.symm, p, ?_⟩
      rw [winners_head (by rw [h, List.length_modifyHead, heq]), winners_head heq.symm, h]
      obtain ⟨x, rest, hwaits⟩ := List.exists_cons_of_ne_nil hpos
      rw [hwaits]
      rfl

theorem Local.waits_ne_nil (hl : Local s w) (hst : (s.cells w).state = .scheduled) :
    s.waits w ≠ [] := by
  obtain ⟨-, rest, hwaits, -⟩ := hl.scheduled hst
  rw [hwaits]
  exact List.cons_ne_nil _ _

theorem grows (hl : Local s w) (hn : n ≤ (s.waits w).length) (h : Step s act s') :
    Grows s s' w n := by
  cases h with
  | @awaitReady _ v | @awaitSuspend _ v =>
    by_cases hv : w = v
    · subst hv
      exact .cons (Function.update_self _ _ _) hn
    · exact .same (by simp [hv])
  | @removeWin t v hpc hst | @expireWin _ v hpc htarget hst =>
    by_cases hv : w = v
    · subst hv
      exact .wins (Function.update_self _ _ _) hst hn (Local.waits_ne_nil hl hst)
    · exact .same (by simp [win, hv])
  | @dispatchWin r rest hmode hpc hst =>
    by_cases hv : w = .event r.ptr
    · subst hv
      exact .wins (Function.update_self _ _ _) hst hn (Local.waits_ne_nil hl hst)
    · exact .same (by simp [win, hv])
  | @resume a v p hpc hcoro =>
    by_cases hv : w = v
    · subst hv
      exact .keeps (Function.update_self _ _ _) (fun _ => rfl) hn
    · exact .same (by simp [Thread.resume, hv])
  | @awaitResume v hco =>
    by_cases hv : w = v
    · subst hv
      exact .keeps (Function.update_self _ _ _) (fun _ => rfl) hn
    · exact .same (by simp [hv])
  | _ => exact .same (by simp [addTarget, addStore, resetTimer])

/-- Who has ended a wait stays who has ended it. -/
theorem winners_leads {p : Party} (h : Thread.system.Leads s u) (hl : ∀ v, Local s v)
    (hn : n ≤ (s.waits w).length) (hp : winners s w n = [p]) : winners u w n = [p] := by
  induction h with
  | refl => exact hp
  | @head s t u a _ hnext _ ih =>
    have hstep := next_step hnext
    obtain ⟨hlength, hwinners⟩ := grows (hl w) hn hstep
    refine ih (Local.step hl hstep) (hn.trans hlength) ?_
    rcases hwinners with heq | ⟨hst, hlast, -⟩
    · exact heq.trans hp
    · obtain ⟨-, rest, hwaits, -⟩ := (hl w).scheduled hst
      rw [winners_head hlast, hwaits] at hp
      cases hp

/-- All but finitely many threads have no call under way. -/
theorem idle_inductive : Thread.system.InductiveUnder (fun _ _ => True) (fun s => ∀ v, Local s v)
    fun s => ∃ m, ∀ t, m ≤ t → s.pc (.thread t) = .idle where
  init := by
    rintro _ ⟨fd, ion, dd, rfl⟩
    exact ⟨0, fun _ _ => rfl⟩
  step s a s' hl := by
    rintro ⟨m, hm⟩ - hn
    have hothers := ((next_step hn).stepAt fun w => (hl w).self).others
    cases hagent : a.agent with
    | loop =>
      refine ⟨m, fun t ht => ?_⟩
      rw [hothers _ (hagent ▸ Agent.noConfusion)]
      exact hm t ht
    | thread b =>
      refine ⟨max m (b + 1), fun t ht => ?_⟩
      have hne : Agent.thread t ≠ a.agent := by
        rw [hagent]
        intro heq
        have := Agent.thread.inj heq
        omega
      rw [hothers _ hne]
      exact hm t ((le_max_left _ _).trans ht)

theorem exists_idle (h : Thread.system.Reachable s) : ∃ t, s.pc (.thread t) = .idle := by
  obtain ⟨m, hm⟩ := idle_inductive.holds (fun _ hs => Local.of_reachable hs) h
  exact ⟨m, hm m (Nat.le_refl m)⟩

/-- A call of `remove` can end the wait of a scheduled object. -/
theorem not_endsByReport (hs : Thread.system.Reachable s) (hst : (s.cells w).state = .scheduled) :
    ¬ EndsByReport s w (s.waits w).length := by
  intro h
  obtain ⟨b, hidle⟩ := exists_idle hs
  let called := s.goto (.thread b) (.removing w)
  have hcall : Thread.system.next s (.remove b w) = some called := if_pos hidle
  have hpc : called.pc (.thread b) = .removing w := by simp [called]
  have hcas : Thread.system.next called (.removeCas b false) =
      some ((win (called.setState w .abandoned) w (.remove b)).goto (.thread b)
        (.finishing w (.remove b) (removeStage w))) := by
    have hwin : ¬ (false = true ∨ (called.cells w).state ≠ .scheduled) := by simp [called, hst]
    show removeCas called b false = _
    rw [removeCas, hpc]
    exact if_neg hwin
  obtain ⟨-, rest, hwaits, -⟩ := (Local.of_reachable hs w).scheduled hst
  obtain ⟨flags, hflags⟩ := h _ (.head trivial hcall (.head trivial hcas (.refl _))) (.remove b) (by
    rw [winners_head (by simp [win, called])]
    simp [win, called, hwaits, Wait.fresh])
  cases hflags

theorem winners_dispatch (h : Waiting s r) (hl : Local s (.event r.ptr))
    {rest : List Thread.Ready} (hmode : s.mode = .dispatching (r :: rest))
    (hn : Step s (.dispatch false) t) :
    winners t (.event r.ptr) (s.waits (.event r.ptr)).length = [.epoll r.flags] := by
  obtain ⟨-, rest', hwaits, -⟩ := hl.scheduled h.scheduled
  cases hn with
  | dispatchLose hmode' _ hlose =>
    obtain ⟨rfl, rfl⟩ := List.cons.inj (Mode.dispatching.inj (hmode.symm.trans hmode'))
    exact absurd h.scheduled (hlose.resolve_left Bool.noConfusion)
  | dispatchWin hmode' _ _ =>
    obtain ⟨rfl, rfl⟩ := List.cons.inj (Mode.dispatching.inj (hmode.symm.trans hmode'))
    rw [winners_head (by simp [win])]
    simp [win, hwaits, Wait.fresh]

/-- A spurious failure leaves the wait to whoever comes first. -/
theorem dispatch_iff (hs : Thread.system.Reachable s) (h : Waiting s r) {rest : List Thread.Ready}
    (hmode : s.mode = .dispatching (r :: rest)) {spurious : Bool}
    (hn : Thread.next s (.dispatch spurious) = some t) :
    EndsByReport t (.event r.ptr) (s.waits (.event r.ptr)).length ↔ spurious = false := by
  have hl := Local.of_reachable hs (.event r.ptr)
  have hnext : Thread.system.next s (.dispatch spurious) = some t := hn
  have ht : Thread.system.Reachable t := .step hs trivial hnext
  have hstep := dispatch_step hn
  cases spurious with
  | true =>
    cases hstep with
    | dispatchLose => exact iff_of_false (not_endsByReport ht h.scheduled) Bool.noConfusion
  | false =>
    refine iff_of_true (fun u hu p hp => ⟨r.flags, ?_⟩) rfl
    have hwon := winners_leads hu (Local.of_reachable ht) (grows hl (Nat.le_refl _) hstep).length
      (winners_dispatch h hl hmode hstep)
    rw [hwon] at hp
    exact List.mem_singleton.mp hp

/-- A descriptor is registered with an Event of that descriptor. -/
theorem keyed_inductive : Thread.system.Inductive (fun _ _ => True) fun s =>
    ∀ fd en, s.epoll fd = some en → s.fd en.ptr = fd where
  init := by
    rintro _ ⟨fd, ion, dd, rfl⟩ f en hen
    cases hen
  step s a s' h _ hn := by
    intro f en hen
    cases next_step hn with
    | @ctlOk t n e op hpc hset =>
      simp only [Sys.goto_epoll, Sys.goto_fd, Function.update_apply] at hen ⊢
      split_ifs at hen with hf
      · obtain rfl := Option.some.inj hen
        exact hf.symm
      · exact h f en hen
    | @del a w p hpc =>
      cases w with
      | event e =>
        simp only [delEntry, Sys.goto_epoll, Sys.goto_fd, Function.update_apply] at hen ⊢
        split_ifs at hen with hf
        exact h f en hen
      | delay d => exact h f en hen
    | cancel =>
      simp only [Sys.goto_epoll, Sys.goto_fd, cancelTimer_epoll, cancelTimer_fd] at hen ⊢
      exact h f en hen
    | _ => exact h f en hen

theorem fd_step (h : Step s act s') : s'.fd = s.fd := by
  cases h with
  | cancel => exact cancelTimer_fd
  | @del a w => cases w <;> rfl
  | _ => rfl

/-- The wait of a scheduled object goes on, or somebody has won it. -/
theorem scheduled_step (hl : Local s w) (hst : (s.cells w).state = .scheduled)
    (h : Step s act s') :
    ((s'.cells w).state = .scheduled ∧ s'.waits w = s.waits w) ∨
      ∃ p, s'.waits w = (s.waits w).modifyHead fun x => { x with wins := x.wins ++ [p] } := by
  have hco := (hl.scheduled hst).1
  have hunowned := hl.unowned (.inr (.inr ⟨hco, hst⟩))
  cases h with
  | @removeWin t v hpc _ | @expireWin _ v hpc _ _ =>
    by_cases hv : w = v
    · subst hv
      exact .inr ⟨_, Function.update_self _ _ _⟩
    · exact .inl (by simp [win, hv, hst])
  | @dispatchWin r rest hmode hpc _ =>
    by_cases hv : w = .event r.ptr
    · subst hv
      exact .inr ⟨_, Function.update_self _ _ _⟩
    · exact .inl (by simp [win, hv, hst])
  | @awaitReady _ v _ _ hout | @awaitSuspend _ v _ _ hout =>
    have hv : w ≠ v := by
      rintro rfl
      cases hco.symm.trans hout
    exact .inl (by simp [hv, hst])
  | @awaitResume v hresumed =>
    have hv : w ≠ v := by
      rintro rfl
      cases hco.symm.trans hresumed
    exact .inl (by simp [hv, hst])
  | @store t _ _ v hpc =>
    have hv : w ≠ v := by
      rintro rfl
      refine hunowned (.thread t) ?_
      rw [hpc]
      cases w with
      | event e => exact ⟨rfl, trivial⟩
      | delay d => exact ⟨rfl, rfl⟩
    exact .inl (by simp [addStore, hv, hst])
  | @storeFired e flags hpc =>
    have hv : w ≠ .event e := by
      rintro rfl
      exact hunowned .loop (by rw [hpc]; exact rfl)
    exact .inl (by simp [hv, hst])
  | @resume a v p hpc hcoro =>
    have hv : w ≠ v := by
      rintro rfl
      exact hunowned a (by rw [hpc]; exact rfl)
    exact .inl (by simp [Thread.resume, hv, hst])
  | _ =>
    left
    simp [Function.update_apply, addTarget, resetTimer]
    grind

/-- The entry of a descriptor changes in a step of the Event of that descriptor. -/
theorem entry_step {e : ℕ} (hsole : Sole s e) (hunowned : ∀ a, ¬ (s.pc a).Owns (.event e))
    (h : Step s act s') : s'.epoll (s.fd e) = s.epoll (s.fd e) := by
  cases h with
  | @ctlOk t _ e' _ hpc _ =>
    have hfd : s.fd e ≠ s.fd e' := by
      intro hfd
      refine hunowned (.thread t) ?_
      rw [hpc, hsole e' hfd.symm]
      exact ⟨rfl, trivial⟩
    simp [hfd]
  | @del a v _ hpc =>
    cases v with
    | event e' =>
      have hfd : s.fd e ≠ s.fd e' := by
        intro hfd
        refine hunowned a ?_
        rw [hpc, hsole e' hfd.symm]
        exact rfl
      simp [delEntry, hfd]
    | delay d => rfl
  | cancel => exact congrFun cancelTimer_epoll _
  | _ => rfl

theorem Waiting.step (h : Waiting s r) (hl : Local s (.event r.ptr)) (hsole : Sole s r.ptr)
    (hkeyed : ∀ fd en, s.epoll fd = some en → s.fd en.ptr = fd) (hn : Step s act s') :
    Waiting s' r ∧ (s'.waits (.event r.ptr)).length = (s.waits (.event r.ptr)).length ∨
      ∃ p, winners s' (.event r.ptr) (s.waits (.event r.ptr)).length = [p] := by
  obtain ⟨hco, rest, hwaits, -⟩ := hl.scheduled h.scheduled
  rcases scheduled_step hl h.scheduled hn with ⟨hst, heq⟩ | ⟨p, heq⟩
  · refine .inl ⟨⟨hst, ?_⟩, congrArg List.length heq⟩
    obtain ⟨en, hen, hfits⟩ := (Option.any_eq_true _ _).mp h.registered
    have hptr : en.ptr = r.ptr := by
      rw [Bool.and_eq_true] at hfits
      exact of_decide_eq_true hfits.1
    have hfd : s.fd r.ptr = r.fd := hptr ▸ hkeyed _ _ hen
    have hentry := entry_step hsole (hl.unowned (.inr (.inr ⟨hco, h.scheduled⟩))) hn
    rw [hfd] at hentry
    exact hentry ▸ h.registered
  · refine .inr ⟨p, ?_⟩
    rw [winners_head (by rw [heq, List.length_modifyHead]), heq, hwaits]
    rfl

theorem Waiting.waitsOn (h : Waiting s r) (hs : Thread.system.Reachable s)
    (hsole : Sole s r.ptr) : WaitsOn s r (s.waits (.event r.ptr)).length := by
  intro u hu
  induction hu with
  | refl => exact .inl ⟨h, rfl⟩
  | @head s t u a _ hnext hrest ih =>
    have hstep := next_step hnext
    have ht : Thread.system.Reachable t := .step hs trivial hnext
    have hl := Local.of_reachable hs
    rcases h.step (hl _) hsole (keyed_inductive.holds hs) hstep with ⟨hwaiting, heq⟩ | ⟨p, hp⟩
    · have hsole' : Sole t r.ptr := by
        rw [Sole, fd_step hstep]
        exact hsole
      rw [← heq]
      exact ih hwaiting ht hsole'
    · have hle := (grows (hl (.event r.ptr)) (Nat.le_refl _) hstep).length
      exact .inr ⟨p, winners_leads hrest (Local.of_reachable ht) hle hp⟩

/-- A failed dispatch leaves the Event as it waits. -/
theorem dispatch_waitsOn (hs : Thread.system.Reachable s) (h : Waiting s r)
    (hsole : Sole s r.ptr) {spurious : Bool} (hn : Thread.next s (.dispatch spurious) = some t) :
    WaitsOn t r (s.waits (.event r.ptr)).length := by
  intro u hu
  have hnext : Thread.system.next s (.dispatch spurious) = some t := hn
  exact h.waitsOn hs hsole u (.head trivial hnext hu)

end Dispatch

/-- After `reset()` the event is unset, unless the compare-exchange has failed on a set one. -/
theorem reset_iff (s : ManualReset.State) (spurious : Bool) :
    (s.reset spurious).isSet = false ↔ spurious = false ∨ s.isSet = false := by
  unfold ManualReset.State.reset ManualReset.State.isSet
  cases spurious with
  | false =>
    by_cases hset : s.state = .setState
    · simp [hset]
    · simp [hset]
  | true => simp

/-- Every call has its effect in the end, whether its compare-exchange fails spuriously or not. -/
structure Harmless : Prop where
  signal : ∀ (s t : Wakeup.State) p k spurious, Wakeup.system.Reachable s →
    s.producers p = .compareExchange k → (∀ q, q ≠ p → quiet (s.producers q) = true) →
    Wakeup.system.next s (signalCas p spurious) = some t → Signals s t
  remove : ∀ (s s' : Thread.Sys) t w spurious, s.pc (.thread t) = .removing w →
    (∀ b, b ≠ t → s.pc (.thread b) ≠ .removing w) → (s.cells w).state = .scheduled →
    Thread.next s (.removeCas t spurious) = some s' → Abandons s' w
  expire : ∀ (s t : Thread.Firing) it spurious, Thread.firing.Reachable s →
    s.run.sys.pc .loop = .popped it → Thread.Firing.meets s.run.sys it = true →
    Thread.firing.next s (.expire spurious) = some t → Completes t it
  dispatch : ∀ (s t : Thread.Sys) r rest spurious, Thread.system.Reachable s → Waiting s r →
    s.mode = .dispatching (r :: rest) → Thread.next s (.dispatch spurious) = some t →
    EndsByReport t (.event r.ptr) (s.waits (.event r.ptr)).length
  reset : ∀ (s t : ManualReset.State) c spurious, ManualReset.next s (.reset c spurious) = some t →
    t.isSet = false

theorem reset_next_iff {s t : ManualReset.State} {c : ℕ} {spurious : Bool}
    (hn : ManualReset.next s (.reset c spurious) = some t) :
    t.isSet = false ↔ spurious = false ∨ s.isSet = false := by
  rw [ManualReset.next] at hn
  split_ifs at hn
  obtain rfl := Option.some.inj hn
  exact reset_iff s spurious

/-- Nothing makes up for a spurious failure: signal, remove and the timer are lost, and the dispatch
leaves the wait to the next report, a timer or a call of `remove`, whichever comes first. -/
theorem single_shot_iff (spurious : Bool) :
    (∀ (s t : Wakeup.State) p k, Wakeup.system.Reachable s →
      s.producers p = .compareExchange k → (∀ q, q ≠ p → quiet (s.producers q) = true) →
      Wakeup.system.next s (signalCas p spurious) = some t → (Signals s t ↔ spurious = false)) ∧
    (∀ (s s' : Thread.Sys) t w, s.pc (.thread t) = .removing w →
      (∀ b, b ≠ t → s.pc (.thread b) ≠ .removing w) → (s.cells w).state = .scheduled →
      Thread.next s (.removeCas t spurious) = some s' → (Abandons s' w ↔ spurious = false)) ∧
    (∀ (s t : Thread.Firing) it, Thread.firing.Reachable s →
      s.run.sys.pc .loop = .popped it → Thread.Firing.meets s.run.sys it = true →
      Thread.firing.next s (.expire spurious) = some t → (Completes t it ↔ spurious = false)) ∧
    (∀ (s t : Thread.Sys) r rest, Thread.system.Reachable s → Waiting s r →
      s.mode = .dispatching (r :: rest) → Thread.next s (.dispatch spurious) = some t →
      (EndsByReport t (.event r.ptr) (s.waits (.event r.ptr)).length ↔ spurious = false) ∧
      (Sole s r.ptr → WaitsOn t r (s.waits (.event r.ptr)).length)) ∧
    ∀ (s t : ManualReset.State) c, ManualReset.next s (.reset c spurious) = some t →
      (t.isSet = false ↔ spurious = false ∨ s.isSet = false) := by
  refine ⟨?_, ?_, ?_, ?_, ?_⟩
  · exact fun s t p k hs hp halone hn => signal_iff hs hp halone hn
  · exact fun s s' t w hpc halone hst hn => remove_iff hpc halone hst hn
  · exact fun s t it hs hpc hmeets hn => expire_iff hs hpc hmeets hn
  · exact fun s t r rest hs hwaiting hmode hn =>
      ⟨dispatch_iff hs hwaiting hmode hn, fun hsole => dispatch_waitsOn hs hwaiting hsole hn⟩
  · exact fun s t c hn => reset_next_iff hn

/-- A set event stays set when `reset()` fails spuriously. -/
theorem single_shot_fails : ¬ Harmless := by
  intro h
  have hset := h.reset (.start true) (.start true) 0 true rfl
  cases hset

end Suil.Async.Spurious
