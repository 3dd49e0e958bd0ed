import Suil.Lib.Progress
import Suil.Async.ManualReset
import Mathlib.Tactic.ByContra
import Mathlib.Data.Nat.Pairing

/-! Every operation pushed to a `ManualResetEvent` is resumed once, by the call of `set`
whose exchange is the first after the push: no operation is lost or resumed twice in any
interleaving, and the steps of the calls of `set` alone resume what they owe. -/
namespace Suil.Async.ManualReset
open Transition Linked

/-- The tickets of the operations queued are those of the pushes not yet resumed; whatever was
pushed before an exchange is resumed by the call that made the first one after it. -/
structure History (s : State) (stack : List ℕ) (rest : ℕ → List ℕ) : Prop where
  live : ∀ c ∈ stack, s.pushes[s.ticket c]? = some s.sets
  owed : ∀ t, ∀ c ∈ rest t, s.pushes[s.ticket c]? = some (s.call t) ∧ s.call t < s.sets
  unresumed : ∀ c, s.pc c = .suspended → ∀ k, (s.ticket c, k) ∉ s.resumed
  distinct : ∀ c d, s.pc c = .suspended → s.pc d = .suspended → s.ticket c = s.ticket d → c = d
  all : ∀ i < s.pushes.length, (∃ c, s.pc c = .suspended ∧ s.ticket c = i) ∨
    ∃ k, (i, k) ∈ s.resumed
  once : (s.resumed.map Prod.fst).Nodup
  first : ∀ i k, (i, k) ∈ s.resumed → s.pushes[i]? = some k ∧ k < s.sets
  seen : s.missed = 0

variable {s s' : State} {stack : List ℕ} {rest rest' : ℕ → List ℕ} {c t : ℕ} {pc : Pc}
  {oldState : Word} {spurious : Bool} {a : Act}

/-- The ghosts are as before. -/
structure SameGhosts (s s' : State) : Prop where
  sets : s'.sets = s.sets
  pushes : s'.pushes = s.pushes
  ticket : s'.ticket = s.ticket
  call : s'.call = s.call
  resumed : s'.resumed = s.resumed
  missed : s'.missed = s.missed

theorem History.congr (h : History s stack rest) (hg : SameGhosts s s')
    (hsusp : ∀ c, s'.pc c = .suspended ↔ s.pc c = .suspended) : History s' stack rest where
  live := by
    rw [hg.pushes, hg.ticket, hg.sets]
    exact h.live
  owed := by
    rw [hg.pushes, hg.ticket, hg.sets, hg.call]
    exact h.owed
  unresumed := by
    simp only [hg.ticket, hg.resumed, hsusp]
    exact h.unresumed
  distinct := by
    simp only [hg.ticket, hsusp]
    exact h.distinct
  all := by
    simp only [hg.pushes, hg.ticket, hg.resumed, hsusp]
    exact h.all
  once := by
    rw [hg.resumed]
    exact h.once
  first := by
    rw [hg.resumed, hg.pushes, hg.sets]
    exact h.first
  seen := hg.missed.trans h.seen

/-- What a call of `set` of `t` has to do is not touched. -/
structure Undisturbed (s s' : State) (rest rest' : ℕ → List ℕ) (t : ℕ) : Prop where
  owed : rest' t = rest t
  pc : s'.pc t = s.pc t
  call : s'.call t = s.call t
  ticket : ∀ c ∈ rest t, s'.ticket c = s.ticket c

/-- The state after a step of `c`: the invariants hold and every other call of `set` goes on. -/
def Advances (s s' : State) (rest : ℕ → List ℕ) (c : ℕ) : Prop :=
  ∃ stack' rest', Inv s' stack' rest' ∧ History s' stack' rest' ∧
    ∀ t, (s.pc t).Walks → t ≠ c → Undisturbed s s' rest rest' t

theorem advances_aside (h : Inv s stack rest) (hh : History s stack rest)
    (hpc : s'.pc = Function.update s.pc c pc) (hn : ∀ a, a ≠ c → s'.next a = s.next a)
    (hst : s'.state.ptr = s.state.ptr) (hg : SameGhosts s s')
    (hc : s.pc c ≠ .suspended ∧ ¬ (s.pc c).Walks) (hc' : pc ≠ .suspended ∧ ¬ pc.Walks) :
    Advances s s' rest c := by
  have hr : rest c = [] := (owes_of_not_walks hc.2).mp (h.owes c)
  have ho : Owes s'.next pc [] := (owes_of_not_walks hc'.2).mpr rfl
  have hother : ∀ d, d ≠ c → s'.pc d = s.pc d := by
    intro d hd
    rw [hpc, Function.update_of_ne hd]
  refine ⟨stack, rest, h.aside hpc hn hst hc.1 hr hc'.1 ho, hh.congr hg fun d => ?_, ?_⟩
  · by_cases hd : d = c
    · rw [hd, hpc, Function.update_self]
      exact iff_of_false hc'.1 hc.1
    · rw [hother d hd]
  · intro t ht htc
    exact ⟨rfl, hother t htc, by rw [hg.call], fun d _ => by rw [hg.ticket]⟩

theorem pass_missed (hs : s.isSet) : (s.pass c).missed = s.missed := by
  simp [State.pass, State.goto, hs]

/-- The value just read sends `c` on or back to the loop. -/
theorem advances_check (h : Inv s stack rest) (hh : History s stack rest)
    (hc : s.pc c ≠ .suspended ∧ ¬ (s.pc c).Walks) {nxt : ℕ → Option ℕ}
    (hn : ∀ a, a ≠ c → nxt a = s.next a) :
    Advances s ({ s with next := nxt }.check c s.state) rest c := by
  unfold State.check
  split_ifs with hset
  · have hm : ({ s with next := nxt }.pass c).missed = s.missed :=
      pass_missed (decide_eq_true hset)
    exact advances_aside h hh rfl hn rfl ⟨rfl, rfl, rfl, rfl, rfl, hm⟩ hc
      ⟨nofun, id⟩
  · exact advances_aside h hh rfl hn rfl ⟨rfl, rfl, rfl, rfl, rfl, rfl⟩ hc
      ⟨nofun, id⟩

theorem ticket_lt (h : Inv s stack rest) (hh : History s stack rest)
    (hc : s.pc c = .suspended) : s.ticket c < s.pushes.length := by
  rcases (h.waiting c).mp hc with hm | ⟨t, hm⟩
  · exact (List.getElem?_eq_some_iff.mp (hh.live c hm)).1
  · exact (List.getElem?_eq_some_iff.mp (hh.owed t c hm).1).1

theorem History.push (h : Inv s stack rest) (hh : History s stack rest)
    (hc : s.pc c ≠ .suspended) (hp : s'.pushes = s.pushes ++ [s.sets])
    (ht : s'.ticket = Function.update s.ticket c s.pushes.length) (hs : s'.sets = s.sets)
    (hcall : s'.call = s.call) (hr : s'.resumed = s.resumed) (hm : s'.missed = s.missed)
    (hpc : s'.pc = Function.update s.pc c .suspended) : History s' (c :: stack) rest := by
  have hne : ∀ d, s.pc d = .suspended → d ≠ c := by
    rintro d hd rfl
    exact hc hd
  have hself : s'.ticket c = s.pushes.length := by rw [ht, Function.update_self]
  have hold : ∀ d, d ≠ c → s'.ticket d = s.ticket d := by
    intro d hd
    rw [ht, Function.update_of_ne hd]
  have hlt : ∀ d, s.pc d = .suspended → s'.ticket d < s.pushes.length := by
    intro d hd
    rw [hold d (hne d hd)]
    exact ticket_lt h hh hd
  have hget : ∀ d, s.pc d = .suspended → s'.pushes[s'.ticket d]? = s.pushes[s.ticket d]? := by
    intro d hd
    rw [hp, List.getElem?_append_left (hlt d hd), hold d (hne d hd)]
  have hsusp : ∀ d, s'.pc d = .suspended ↔ d = c ∨ s.pc d = .suspended := by
    intro d
    rw [hpc, Function.update_apply]
    split_ifs with hd <;> simp [hd]
  constructor
  · intro d hd
    rcases List.mem_cons.mp hd with rfl | hd
    · rw [hp, hself, hs]
      exact List.getElem?_concat_length
    · rw [hget d ((h.waiting d).mpr (.inl hd)), hs]
      exact hh.live d hd
  · intro u d hd
    rw [hget d ((h.waiting d).mpr (.inr ⟨u, hd⟩)), hs, hcall]
    exact hh.owed u d hd
  · intro d hd k hk
    rw [hr] at hk
    rcases (hsusp d).mp hd with rfl | hd
    · rw [hself] at hk
      have hfirst := (hh.first _ _ hk).1
      rw [List.getElem?_eq_none (Nat.le_refl _)] at hfirst
      exact absurd hfirst nofun
    · rw [hold d (hne d hd)] at hk
      exact hh.unresumed d hd k hk
  · intro d e hd he hde
    rcases (hsusp d).mp hd with rfl | hd <;> rcases (hsusp e).mp he with rfl | he
    · rfl
    · have := hlt e he
      omega
    · have := hlt d hd
      omega
    · rw [hold d (hne d hd), hold e (hne e he)] at hde
      exact hh.distinct d e hd he hde
  · intro i hi
    rw [hp, List.length_append, List.length_singleton] at hi
    rw [hr]
    by_cases hlast : i = s.pushes.length
    · exact .inl ⟨c, (hsusp c).mpr (.inl rfl), by rw [hself, hlast]⟩
    · refine (hh.all i (by omega)).imp_left ?_
      rintro ⟨d, hd, rfl⟩
      exact ⟨d, (hsusp d).mpr (.inr hd), hold d (hne d hd)⟩
  · rw [hr]
    exact hh.once
  · intro i k hik
    rw [hr] at hik
    obtain ⟨hget, hk⟩ := hh.first i k hik
    have hi := (List.getElem?_eq_some_iff.mp hget).1
    rw [hp, List.getElem?_append_left hi, hs]
    exact ⟨hget, hk⟩
  · rw [hm]
    exact hh.seen

theorem History.set (hh : History s stack rest) (ht : s.pc t = .out) :
    History (s.set t) [] (Function.update rest t stack) := by
  have hsusp := suspended_set ht
  constructor
  · intro d hd
    exact absurd hd List.not_mem_nil
  · intro u d hd
    show s.pushes[s.ticket d]? = some (Function.update s.call t s.sets u) ∧
      Function.update s.call t s.sets u < s.sets + 1
    by_cases hu : u = t
    · subst hu
      rw [Function.update_self] at hd ⊢
      exact ⟨hh.live d hd, Nat.lt_succ_self _⟩
    · rw [Function.update_of_ne hu] at hd ⊢
      obtain ⟨hget, hlt⟩ := hh.owed u d hd
      exact ⟨hget, Nat.lt_succ_of_lt hlt⟩
  · exact fun d hd => hh.unresumed d ((hsusp d).mp hd)
  · exact fun d e hd he => hh.distinct d e ((hsusp d).mp hd) ((hsusp e).mp he)
  · intro i hi
    refine (hh.all i hi).imp_left ?_
    rintro ⟨d, hd, hdi⟩
    exact ⟨d, (hsusp d).mpr hd, hdi⟩
  · exact hh.once
  · intro i k hik
    obtain ⟨hget, hk⟩ := hh.first i k hik
    exact ⟨hget, Nat.lt_succ_of_lt hk⟩
  · exact hh.seen

theorem History.resume {op : ℕ} {nxt : Option ℕ} {r : List ℕ} (h : Inv s stack rest)
    (hh : History s stack rest) (ht : s.pc t = .resume op nxt) (hl : rest t = op :: r) :
    History (s.resume t op nxt) stack (Function.update rest t r) := by
  have hop : op ∈ rest t := by
    rw [hl]
    exact List.mem_cons_self
  have hsuspop : s.pc op = .suspended := (h.waiting op).mpr (.inr ⟨t, hop⟩)
  have hsusp : ∀ d, (s.resume t op nxt).pc d = .suspended → d ≠ op ∧ s.pc d = .suspended := by
    intro d hd
    simp only [State.resume, goto_pc] at hd
    split_ifs at hd with hdt hdop
    exact ⟨hdop, hd⟩
  have hresumed : ∀ i k, (i, k) ∈ (s.resume t op nxt).resumed ↔
      (i, k) ∈ s.resumed ∨ i = s.ticket op ∧ k = s.call t := by
    intro i k
    show (i, k) ∈ s.resumed ++ [(s.ticket op, s.call t)] ↔ _
    rw [List.mem_append, List.mem_singleton, Prod.mk.injEq]
  constructor
  · exact hh.live
  · intro u d hd
    refine hh.owed u d ?_
    by_cases hu : u = t
    · subst hu
      rw [Function.update_self] at hd
      rw [hl]
      exact List.mem_cons_of_mem _ hd
    · rwa [Function.update_of_ne hu] at hd
  · intro d hd k hk
    obtain ⟨hdop, hd⟩ := hsusp d hd
    rcases (hresumed _ _).mp hk with hk | ⟨hk, -⟩
    · exact hh.unresumed d hd k hk
    · exact hdop (hh.distinct d op hd hsuspop hk)
  · exact fun d e hd he => hh.distinct d e (hsusp d hd).2 (hsusp e he).2
  · intro i hi
    rcases hh.all i hi with ⟨d, hd, hdi⟩ | ⟨k, hk⟩
    · by_cases hdop : d = op
      · exact .inr ⟨s.call t, (hresumed _ _).mpr (.inr ⟨by rw [← hdi, hdop], rfl⟩)⟩
      · refine .inl ⟨d, ?_, hdi⟩
        have hdt : d ≠ t := by
          rintro rfl
          rw [hd] at ht
          cases ht
        simp only [State.resume, goto_pc, if_neg hdt, if_neg hdop]
        exact hd
    · exact .inr ⟨k, (hresumed _ _).mpr (.inl hk)⟩
  · show ((s.resumed ++ [(s.ticket op, s.call t)]).map Prod.fst).Nodup
    rw [List.map_append]
    refine hh.once.append (List.nodup_singleton _) ?_
    rintro i hi hi'
    obtain ⟨⟨j, k⟩, hk, rfl⟩ := List.mem_map.mp hi
    have hj : j = s.ticket op := List.mem_singleton.mp hi'
    exact hh.unresumed op hsuspop k (hj ▸ hk)
  · intro i k hik
    rcases (hresumed i k).mp hik with hik | ⟨rfl, rfl⟩
    · exact hh.first i k hik
    · exact hh.owed t op hop
  · exact hh.seen

/-- Who takes a step. -/
def Act.actor : Act → ℕ
  | .coAwait c | .load c | .cas c _ | .set c | .step c | .reset c _ => c

theorem advances_push (h : Inv s stack rest) (hh : History s stack rest)
    (hc : s.pc c = .loop oldState) : Advances s (s.push c oldState spurious) rest c := by
  have hfree : s.pc c ≠ .suspended ∧ ¬ (s.pc c).Walks := by
    rw [hc]
    exact ⟨nofun, id⟩
  have hn : ∀ a, a ≠ c → Function.update s.next c oldState.ptr a = s.next a :=
    fun a ha => Function.update_of_ne ha _ _
  simp only [State.push]
  split_ifs with hfail
  · exact advances_check h hh hfree hn
  · have hst : s.state = oldState := by
      by_contra hne
      exact hfail (.inr hne)
    refine ⟨c :: stack, rest, h.push hfree.1 hfree.2 rfl (by rw [hst]; rfl) rfl,
      hh.push h hfree.1 rfl rfl rfl rfl rfl rfl rfl, fun t ht htc => ?_⟩
    refine ⟨rfl, by simp [htc], rfl, fun d hd => Function.update_of_ne ?_ _ _⟩
    rintro rfl
    exact hfree.1 ((h.waiting d).mpr (.inr ⟨t, hd⟩))

theorem advances_set (h : Inv s stack rest) (hh : History s stack rest) (ht : s.pc t = .out) :
    Advances s (s.set t) rest t := by
  refine ⟨[], Function.update rest t stack, h.set ht, hh.set ht, fun u _ hut => ?_⟩
  exact ⟨Function.update_of_ne hut _ _, by simp [State.set, hut],
    Function.update_of_ne hut _ _, fun _ _ => rfl⟩

/-- The call of `set` returns. -/
theorem advances_return (h : Inv s stack rest) (hh : History s stack rest)
    (ht : s.pc t = .walk none) : Advances s (s.goto t .out) rest t := by
  have hr : rest t = [] := by
    have howes := h.owes t
    rw [ht] at howes
    exact chain_none.mp howes
  have hne : s.pc t ≠ .suspended := by
    rw [ht]
    exact nofun
  refine ⟨stack, rest, h.aside rfl (fun _ _ => rfl) rfl hne hr nofun rfl,
    hh.congr ⟨rfl, rfl, rfl, rfl, rfl, rfl⟩ fun d => ?_, fun u _ hut => ?_⟩
  · by_cases hd : d = t
    · rw [goto_pc, if_pos hd, hd]
      exact iff_of_false nofun hne
    · rw [goto_pc, if_neg hd]
  · exact ⟨rfl, by simp [hut], rfl, fun _ _ => rfl⟩

theorem history_walk {op : ℕ} (hh : History s stack rest) (ht : s.pc t = .walk (some op)) :
    History (s.walk t (some op)) stack rest :=
  hh.congr ⟨rfl, rfl, rfl, rfl, rfl, rfl⟩ (suspended_walk ht)

theorem advances_step (h : Inv s stack rest) (hh : History s stack rest)
    (hn : next s (.step t) = some s') : Advances s s' rest t := by
  obtain ⟨current, ht, rfl⟩ | ⟨op, nxt, ht, rfl⟩ := step_cases hn
  · cases current with
    | none => exact advances_return h hh ht
    | some op =>
      refine ⟨stack, rest, h.walk ht, history_walk hh ht, fun u _ hut => ?_⟩
      exact ⟨rfl, by simp [State.walk, hut], rfl, fun _ _ => rfl⟩
  · obtain ⟨r, hl, hi⟩ := h.resume ht
    refine ⟨stack, _, hi, hh.resume h ht hl, fun u hu hut => ?_⟩
    have hop : s.pc op = .suspended := by
      refine (h.waiting op).mpr (.inr ⟨t, ?_⟩)
      rw [hl]
      exact List.mem_cons_self
    have huop : u ≠ op := by
      rintro rfl
      rw [hop] at hu
      exact hu
    exact ⟨Function.update_of_ne hut _ _, by simp [State.resume, hut, huop], rfl, fun _ _ => rfl⟩

theorem free_of_pc (h : s.pc c = .out ∨ s.pc c = .load) :
    s.pc c ≠ .suspended ∧ ¬ (s.pc c).Walks := by
  rcases h with h | h
  · rw [h]
    exact ⟨nofun, id⟩
  · rw [h]
    exact ⟨nofun, id⟩

theorem advances_next (h : Inv s stack rest) (hh : History s stack rest)
    (hn : next s a = some s') : Advances s s' rest a.actor := by
  cases a with
  | coAwait c =>
    obtain ⟨hc, hn⟩ := Option.ite_none_right_eq_some.mp hn
    have hfree := free_of_pc (.inl hc)
    obtain rfl := Option.some.inj hn
    split_ifs with hset
    · exact advances_aside h hh rfl (fun _ _ => rfl) rfl
        ⟨rfl, rfl, rfl, rfl, rfl, pass_missed hset⟩ hfree ⟨nofun, id⟩
    · exact advances_aside h hh rfl (fun _ _ => rfl) rfl
        ⟨rfl, rfl, rfl, rfl, rfl, rfl⟩ hfree ⟨nofun, id⟩
  | load c =>
    obtain ⟨hc, hn⟩ := Option.ite_none_right_eq_some.mp hn
    have hfree := free_of_pc (.inr hc)
    exact Option.some.inj hn ▸ advances_check h hh hfree fun _ _ => rfl
  | cas c spurious =>
    obtain ⟨oldState, hc, rfl⟩ := cas_cases hn
    exact advances_push h hh hc
  | set t =>
    obtain ⟨ht, hn⟩ := Option.ite_none_right_eq_some.mp hn
    exact Option.some.inj hn ▸ advances_set h hh ht
  | step t => exact advances_step h hh hn
  | reset t spurious =>
    obtain ⟨ht, hn⟩ := Option.ite_none_right_eq_some.mp hn
    have hfree := free_of_pc (.inl ht)
    have hpc : s.pc = Function.update s.pc t .out := by rw [← ht, Function.update_eq_self]
    obtain rfl := Option.some.inj hn
    unfold State.reset
    split_ifs with hfail
    · exact advances_aside h hh hpc (fun _ _ => rfl) rfl ⟨rfl, rfl, rfl, rfl, rfl, rfl⟩ hfree
        ⟨nofun, id⟩
    · have hst : s.state = .setState := by
        by_contra hne
        exact hfail (.inr hne)
      exact advances_aside h hh hpc (fun _ _ => rfl) (by rw [hst]; rfl)
        ⟨rfl, rfl, rfl, rfl, rfl, rfl⟩ hfree ⟨nofun, id⟩

/-- The two invariants for some stack and some operations taken from it. -/
def Kept (s : State) : Prop := ∃ stack rest, Inv s stack rest ∧ History s stack rest

theorem kept_start (initiallySet : Bool) : Kept (.start initiallySet) := by
  refine ⟨[], fun _ => [], ⟨?_, fun _ => rfl, fun c => ?_, List.nodup_nil, fun _ => List.nodup_nil,
    nofun, fun _ _ _ h => absurd h List.not_mem_nil⟩, ⟨nofun, fun _ _ h => absurd h List.not_mem_nil,
    fun _ h => absurd h nofun, fun _ _ h => absurd h nofun, fun i h => absurd h (Nat.not_lt_zero i),
    List.nodup_nil, fun _ _ h => absurd h List.not_mem_nil, rfl⟩⟩
  · cases initiallySet <;> rfl
  · refine iff_of_false nofun ?_
    rintro (h | ⟨t, h⟩) <;> exact absurd h List.not_mem_nil

theorem kept_inductive (initiallySet : Bool) :
    (system initiallySet).Inductive (fun _ _ => True) Kept where
  init _ hs := hs ▸ kept_start initiallySet
  step s a s' hs _ hn := by
    obtain ⟨stack, rest, h, hh⟩ := hs
    obtain ⟨stack', rest', h', hh', -⟩ := advances_next h hh hn
    exact ⟨stack', rest', h', hh'⟩

/-- The steps that a call of `set` takes between the read of `_next` and the next one. -/
def Pc.weight : Pc → ℕ
  | .walk _ => 1
  | _ => 0

/-- The call of `set` of `t`, which made exchange `k`, has yet to resume push `i`; the rank is
the number of steps it has left, or a little more. -/
def Owing (t i k b : ℕ) (s : State) : Prop :=
  ∃ stack rest, Inv s stack rest ∧ History s stack rest ∧ s.call t = k ∧
    (∃ c ∈ rest t, s.ticket c = i) ∧ b = 2 * (rest t).length + (s.pc t).weight

section Progress
variable {i k b : ℕ} {initiallySet : Bool}

theorem walks_of_owing {l : List ℕ} (h : Inv s stack rest) (hl : rest t = l) (hc : c ∈ l) :
    (s.pc t).Walks := by
  by_contra hw
  have hnil := (owes_of_not_walks hw).mp (h.owes t)
  rw [← hl, hnil] at hc
  exact absurd hc List.not_mem_nil

theorem lowers_step (h : Owing t i k b s) (hn : next s (.step t) = some s') :
    (i, k) ∈ s'.resumed ∨ ∃ b' < b, Owing t i k b' s' := by
  obtain ⟨stack, rest, hi, hh, rfl, ⟨c, hc, rfl⟩, rfl⟩ := h
  obtain ⟨current, ht, rfl⟩ | ⟨op, nxt, ht, rfl⟩ := step_cases hn
  · cases current with
    | none =>
      have howes := hi.owes t
      rw [ht] at howes
      rw [chain_none.mp howes] at hc
      exact absurd hc List.not_mem_nil
    | some op =>
      refine .inr ⟨_, ?_, stack, rest, hi.walk ht, history_walk hh ht, rfl, ⟨c, hc, rfl⟩, rfl⟩
      simp [ht, State.walk, Pc.weight]
  · obtain ⟨r, hl, hi'⟩ := hi.resume ht
    rw [hl] at hc
    rcases List.mem_cons.mp hc with rfl | hc
    · exact .inl (List.mem_append_right _ (List.mem_singleton.mpr rfl))
    · refine .inr ⟨_, ?_, stack, _, hi', hh.resume hi ht hl, rfl, ⟨c, ?_, rfl⟩, rfl⟩
      · simp only [Function.update_self, hl, List.length_cons, ht, State.resume, goto_pc,
          if_true, Pc.weight]
        omega
      · rwa [Function.update_self]

/-- A call of `set` that is at work does nothing else. -/
theorem not_walks_of_next (hn : next s a = some s') (ha : a ≠ .step a.actor) :
    ¬ (s.pc a.actor).Walks := by
  cases a with
  | step t => exact absurd rfl ha
  | cas c spurious =>
    obtain ⟨oldState, hc, -⟩ := cas_cases hn
    show ¬ (s.pc c).Walks
    rw [hc]
    exact id
  | _ =>
    obtain ⟨hc, -⟩ := Option.ite_none_right_eq_some.mp hn
    simp only [Act.actor, hc]
    exact id

theorem ranked_step (t i k : ℕ) :
    (system initiallySet).Ranked (· = .step t) (Owing t i k) fun s => (i, k) ∈ s.resumed where
  enabled b s h := by
    obtain ⟨stack, rest, hi, -, -, ⟨c, hc, -⟩, -⟩ := h
    have hw := walks_of_owing hi rfl hc
    cases hpc : s.pc t with
    | walk current => exact ⟨.step t, s.walk t current, rfl, by simp [system, next, hpc]⟩
    | resume op nxt => exact ⟨.step t, s.resume t op nxt, rfl, by simp [system, next, hpc]⟩
    | _ =>
      rw [hpc] at hw
      exact absurd hw id
  helps b s a s' h ha hn := lowers_step h (ha ▸ hn)
  keeps b s a s' h hn := by
    by_cases ha : a = .step t
    · refine (lowers_step h (ha ▸ hn)).imp_right ?_
      rintro ⟨b', hb', hs'⟩
      exact ⟨b', hb'.le, hs'⟩
    · obtain ⟨stack, rest, hi, hh, hk, ⟨c, hc, hci⟩, rfl⟩ := h
      have hw := walks_of_owing hi rfl hc
      have hta : t ≠ a.actor := by
        rintro rfl
        exact not_walks_of_next hn ha hw
      obtain ⟨stack', rest', hi', hh', hothers⟩ := advances_next hi hh hn
      obtain ⟨hrest, hpc, hcall, hticket⟩ := hothers t hw hta
      refine .inr ⟨_, le_rfl, stack', rest', hi', hh', hcall.trans hk, ⟨c, ?_, ?_⟩, ?_⟩
      · rwa [hrest]
      · rw [hticket c hc, hci]
      · rw [hrest, hpc]

end Progress

/-- What holds of every state: a push is resumed at most once, and by the first exchange after
it; after that exchange it is resumed unless the call that made it is at work; whoever did not
suspend saw the event set. -/
structure Delivers (s : State) : Prop where
  once : (s.resumed.map Prod.fst).Nodup
  first : ∀ i k, (i, k) ∈ s.resumed → s.pushes[i]? = some k ∧ k < s.sets
  all : ∀ i k, s.pushes[i]? = some k → k < s.sets →
    (i, k) ∈ s.resumed ∨ ∃ t, (s.pc t).Walks ∧ s.call t = k
  seen : s.missed = 0

/-- A push with an exchange after it is resumed or owed by the call of the first. -/
theorem resumed_or_owing {i k : ℕ} (h : Inv s stack rest) (hh : History s stack rest)
    (hi : s.pushes[i]? = some k) (hk : k < s.sets) :
    (i, k) ∈ s.resumed ∨ ∃ t c, c ∈ rest t ∧ s.ticket c = i ∧ s.call t = k := by
  rcases hh.all i (List.getElem?_eq_some_iff.mp hi).1 with ⟨c, hc, rfl⟩ | ⟨k', hk'⟩
  · rcases (h.waiting c).mp hc with hm | ⟨t, hm⟩
    · have hsets := Option.some.inj (hi.symm.trans (hh.live c hm))
      omega
    · exact .inr ⟨t, c, hm, rfl, Option.some.inj ((hh.owed t c hm).1.symm.trans hi)⟩
  · have hkk : k' = k := Option.some.inj ((hh.first i k' hk').1.symm.trans hi)
    exact .inl (hkk ▸ hk')

theorem delivers_of_kept (h : Kept s) : Delivers s := by
  obtain ⟨stack, rest, hi, hh⟩ := h
  refine ⟨hh.once, hh.first, fun i k hik hk => ?_, hh.seen⟩
  refine (resumed_or_owing hi hh hik hk).imp_right ?_
  rintro ⟨t, c, hc, -, hcall⟩
  exact ⟨t, walks_of_owing hi rfl hc, hcall⟩

theorem owing_of_kept {i k : ℕ} (h : Kept s) (hi : s.pushes[i]? = some k) (hk : k < s.sets) :
    (i, k) ∈ s.resumed ∨ ∃ t b, Owing t i k b s := by
  obtain ⟨stack, rest, hinv, hh⟩ := h
  refine (resumed_or_owing hinv hh hi hk).imp_right ?_
  rintro ⟨t, c, hc, hci, hcall⟩
  exact ⟨t, _, stack, rest, hinv, hh, hcall, ⟨c, hc, hci⟩, rfl⟩

/-- Every call of `set` that is at work goes on. -/
def Fair {initiallySet : Bool} (r : (system initiallySet).Run) : Prop :=
  ∀ n t, ((r.state n).pc t).Walks → ∃ m ≥ n, r.act m = .step t

theorem Fair.resumes {initiallySet : Bool} {r : (system initiallySet).Run} (hr : Fair r)
    {n i k : ℕ} (hi : (r.state n).pushes[i]? = some k) (hk : k < (r.state n).sets) :
    ∃ m ≥ n, (i, k) ∈ (r.state m).resumed := by
  rcases owing_of_kept ((kept_inductive initiallySet).holds (r.reachable n)) hi hk with
    hdone | ⟨t, b, hb⟩
  · exact ⟨n, le_rfl, hdone⟩
  · have hfair : ∀ b m, Owing t i k b (r.state m) → ∃ m' ≥ m, r.act m' = .step t := by
      rintro b m ⟨_, _, hinv, -, -, ⟨c, hc, -⟩, -⟩
      exact hr m t (walks_of_owing hinv rfl hc)
    obtain ⟨m, hm, hdone⟩ := (ranked_step t i k).eventually r hfair hb
    exact ⟨m, hm.le, hdone⟩

/-- The steps of a call of `set` that has made its exchange. -/
def Act.IsWalk : Act → Prop
  | .step _ => True
  | _ => False

/-- No waiter is lost: in every state the resumed operations are as they should be, in every
fair run an operation is resumed by the first exchange after its push, and the steps of
the calls of `set` alone lead there from every state. -/
theorem manualReset_correct (initiallySet : Bool) :
    (∀ s, (system initiallySet).Reachable s → Delivers s) ∧
    (∀ r : (system initiallySet).Run, Fair r → ∀ n i k, (r.state n).pushes[i]? = some k →
      k < (r.state n).sets → ∃ m ≥ n, (i, k) ∈ (r.state m).resumed) ∧
    ∀ s, (system initiallySet).Reachable s → ∀ i k, s.pushes[i]? = some k → k < s.sets →
      ∃ s', (system initiallySet).LeadsBy Act.IsWalk s s' ∧ (i, k) ∈ s'.resumed := by
  refine ⟨fun s hs => ?_, fun r hr n i k hi hk => hr.resumes hi hk, fun s hs i k hi hk => ?_⟩
  · exact delivers_of_kept ((kept_inductive initiallySet).holds hs)
  · rcases owing_of_kept ((kept_inductive initiallySet).holds hs) hi hk with hdone | ⟨t, b, hb⟩
    · exact ⟨s, .refl s, hdone⟩
    · obtain ⟨s', hs', hdone⟩ := (ranked_step t i k).leads hb
      exact ⟨s', hs'.mono fun a ha => ha ▸ trivial, hdone⟩

section Schedule
variable {initiallySet : Bool} {s s' : State} {t c : ℕ} {a : Act}

/-- Nobody but the actor leaves where it is outside of the event. -/
theorem out_of_next (hn : next s a = some s') (hc : c ≠ a.actor) (hout : s.pc c = .out) :
    s'.pc c = .out := by
  cases a with
  | step t =>
    have hct : c ≠ t := hc
    obtain ⟨current, -, rfl⟩ | ⟨op, nxt, -, rfl⟩ := step_cases hn
    · cases current <;> simp [State.walk, hct, hout]
    · simp [State.resume, hct, hout]
  | cas c' spurious =>
    have hcc : c ≠ c' := hc
    obtain ⟨oldState, -, rfl⟩ := cas_cases hn
    simp only [State.push, State.check, State.pass]
    split_ifs <;> simp [hcc, hout]
  | coAwait c' =>
    have hcc : c ≠ c' := hc
    obtain ⟨-, hn⟩ := Option.ite_none_right_eq_some.mp hn
    cases hn
    unfold State.pass
    split_ifs <;> simp [hcc, hout]
  | load c' =>
    have hcc : c ≠ c' := hc
    obtain ⟨-, hn⟩ := Option.ite_none_right_eq_some.mp hn
    cases hn
    unfold State.check State.pass
    split_ifs <;> simp [hcc, hout]
  | set t =>
    have hct : c ≠ t := hc
    obtain ⟨-, hn⟩ := Option.ite_none_right_eq_some.mp hn
    cases hn
    simp [State.set, hct, hout]
  | reset t spurious =>
    obtain ⟨-, hn⟩ := Option.ite_none_right_eq_some.mp hn
    cases hn
    unfold State.reset
    split_ifs <;> exact hout

/-- In a run that has not ended, all but finitely many have not come yet. -/
theorem out_inductive (initiallySet : Bool) :
    (system initiallySet).Inductive (fun _ _ => True) fun s => ∃ m, ∀ c ≥ m, s.pc c = .out where
  init s hs := ⟨0, fun c _ => by rw [hs]; rfl⟩
  step s a s' h _ hn := by
    obtain ⟨m, hm⟩ := h
    refine ⟨max m (a.actor + 1), fun c hc => ?_⟩
    have hle := (le_max_left _ _).trans hc
    have hlt := (le_max_right _ _).trans hc
    exact out_of_next hn (Nat.ne_of_gt hlt) (hm c hle)

/-- A call of `set` that is at work stays so until it takes a step itself. -/
theorem walks_of_next (hs : (system initiallySet).Reachable s) (hn : next s a = some s')
    (hw : (s.pc t).Walks) (ha : a ≠ .step t) : (s'.pc t).Walks := by
  obtain ⟨stack, rest, hi, hh⟩ := (kept_inductive initiallySet).holds hs
  have hta : t ≠ a.actor := by
    rintro rfl
    exact not_walks_of_next hn ha hw
  obtain ⟨_, _, _, _, hothers⟩ := advances_next hi hh hn
  obtain ⟨-, hpc, -, -⟩ := hothers t hw hta
  rwa [hpc]

theorem walks_of_steps (r : (system initiallySet).Run) {n m : ℕ} (hnm : n ≤ m)
    (hw : ((r.state n).pc t).Walks) (hnone : ∀ j ≥ n, j < m → r.act j ≠ .step t) :
    ((r.state m).pc t).Walks := by
  induction m, hnm using Nat.le_induction with
  | base => exact hw
  | succ m hnm ih =>
    exact walks_of_next (r.reachable m) (r.step m)
      (ih fun j hj hlt => hnone j hj (Nat.lt_succ_of_lt hlt)) (hnone m hnm (Nat.lt_succ_self m))

/-- A fair run passes through every state: the calls of `set` get their turns one after another. -/
theorem exists_fair (hs : (system initiallySet).Reachable s) :
    ∃ (r : (system initiallySet).Run) (n : ℕ), r.state n = s ∧ Fair r := by
  let turn : ℕ → ℕ := fun k => (Nat.unpair k).2
  have hgood : ∀ k u, (system initiallySet).Reachable u →
      ∃ a v, ((u.pc (turn k)).Walks → a = .step (turn k)) ∧ next u a = some v := by
    intro k u hu
    obtain ⟨m, hm⟩ := (out_inductive initiallySet).holds hu
    have hidle : next u (.reset m true) = some (u.reset true) := if_pos (hm m le_rfl)
    cases hpc : u.pc (turn k) with
    | walk current =>
      exact ⟨.step (turn k), u.walk (turn k) current, fun _ => rfl, by simp [next, hpc]⟩
    | resume op nxt =>
      exact ⟨.step (turn k), u.resume (turn k) op nxt, fun _ => rfl, by simp [next, hpc]⟩
    | _ => exact ⟨.reset m true, _, False.elim, hidle⟩
  obtain ⟨r, n, hn, hr⟩ := System.exists_run_scheduled
    (fun k u a => (u.pc (turn k)).Walks → a = .step (turn k)) hgood hs
  refine ⟨r, n, hn, fun m t hw => ?_⟩
  -- a turn of `t` that is still to come
  have hturn : turn (Nat.pair m t) = t := congrArg Prod.snd (Nat.unpair_pair m t)
  have hle : m ≤ n + Nat.pair m t := (Nat.left_le_pair m t).trans (Nat.le_add_left _ _)
  by_contra hnone
  have hnone' : ∀ j ≥ m, r.act j ≠ .step t := fun j hj heq => hnone ⟨j, hj, heq⟩
  have hstill := walks_of_steps r hle hw fun j hj _ => hnone' j hj
  have hact := hr (Nat.pair m t)
  rw [hturn] at hact
  exact hnone' _ hle (hact hstill)

end Schedule

/-- 1 waits, is resumed by the call of 0, resets the event and waits again; 2 resumes it. -/
example : ((system false).run (.start false) [.coAwait 1, .load 1, .cas 1 false, .set 0, .step 0,
    .step 0, .reset 1 false, .coAwait 1, .load 1, .cas 1 true, .cas 1 false, .step 0, .set 2,
    .step 2, .step 2]).map (fun s => (s.pushes, s.resumed)) =
    some ([0, 1], [(0, 0), (1, 1)]) := by decide

/-- 1 waits, and is resumed in a fair run by the call of 0. -/
theorem manualReset_correct_waits : ∃ r : (system false).Run, Fair r ∧
    ∃ n, (r.state n).pushes[0]? = some 0 ∧ 0 < (r.state n).sets ∧
      (r.state n).resumed = [] ∧ ∃ m ≥ n, (0, 0) ∈ (r.state m).resumed := by
  obtain ⟨s, hs, hp⟩ := (system false).exists_reachable_of_run
    [.coAwait 1, .load 1, .cas 1 false, .set 0]
    (fun s => s.pushes = [0] ∧ s.sets = 1 ∧ s.resumed = []) (s := .start false) rfl (by decide)
  obtain ⟨hpushes, hsets, hresumed⟩ := of_decide_eq_true hp
  obtain ⟨r, n, rfl, hr⟩ := exists_fair hs
  have hpush : (r.state n).pushes[0]? = some 0 := by rw [hpushes]; rfl
  have hset : 0 < (r.state n).sets := by rw [hsets]; exact Nat.one_pos
  exact ⟨r, hr, n, hpush, hset, hresumed, (manualReset_correct false).2.1 r hr n 0 0 hpush hset⟩

end Suil.Async.ManualReset
