import Suil.Lib.FirstWins
import Suil.Utils.Script

/-! What a parse leaves in `mParsed`. A table finds what the key equality takes for the key, or only
a part of it. -/
namespace Suil.Utils.Args
open CText (Chars)

/-- The keys that a table does not tell apart; the key equality does not, either. -/
structure KeyEq extends FirstWins.Same Chars where
  sound : ∀ {l k}, test l k → std_string_case_eq l k

def KeyEq.table (E : KeyEq) : Table where
  finds ks k := ks.any fun l => E.test l k
  mem {_ k} h := List.any_eq_true.mpr ⟨k, h, E.refl k⟩
  sound h := by
    obtain ⟨l, hl, htest⟩ := List.any_eq_true.mp h
    exact ⟨l, hl, E.sound htest⟩

/-- `mParsed.find`. -/
def State.find (E : KeyEq) (s : State) (k : Chars) : Option Chars :=
  FirstWins.find E.toSame s.parsed k

/-- A small table, which compares every two keys. -/
def anyCase : KeyEq where
  test := std_string_case_eq
  refl _ := by simp [std_string_case_eq]
  symm h := by
    simp only [std_string_case_eq, beq_iff_eq] at h ⊢
    exact h.symm
  trans h h' := by
    simp only [std_string_case_eq, beq_iff_eq] at h h' ⊢
    exact h.trans h'
  sound := id

/-- A table whose hash tells all names apart. -/
def eachCase : KeyEq where
  test l k := l == k
  refl _ := by simp
  symm h := by
    simp only [beq_iff_eq] at h ⊢
    exact h.symm
  trans h h' := by
    simp only [beq_iff_eq] at h h' ⊢
    exact h.trans h'
  sound h := by
    simp only [beq_iff_eq] at h
    rw [h]
    simp [std_string_case_eq]

def Event.given? : Event → Option (Arg × Chars)
  | .positional _ => none
  | .fresh _ => none
  | .give a v => some (a, v)

/-- The arguments that are given on the command line, with their values. -/
def givenOf (es : List Event) : List (Arg × Chars) := es.filterMap Event.given?

def entriesOf (es : List Event) : List (Chars × Chars) := (givenOf es).map fun g => (g.1.lf, g.2)

def GivenOption (cmd : Command) (argv : List Chars) (a : Arg) : Prop :=
  a.option ∧ ∃ v, (a, v) ∈ givenOf (script cmd argv).1

/-- The arguments that a flag names. -/
def named (cmd : Command) (t : Chars) : List Arg :=
  match isValid (cArg t) with
  | 0 => []
  | 2 => (cmd.check ((cArg t).drop 2) NOSF).toList
  | _ => ((cArg t).drop 1).filterMap fun c => cmd.check [] c

/-- The same for any table, whatever entry it finds. -/
structure Holds (T : Table) (cmd : Command) (argv : List Chars) (s : State) : Prop where
  required : ∀ a ∈ cmd.args, a.required → s.found T a.lf
  keys : ∀ k ∈ s.keys, ∃ a ∈ cmd.args, a.lf = k
  options : ∀ a, GivenOption cmd argv a → s.found T a.lf ∧
    ∀ p ∈ s.parsed, std_string_case_eq p.1 a.lf → p.2 = "1".toList

/-- No two long names differ in the case of their letters only. -/
def CaseDistinct (cmd : Command) : Prop :=
  ∀ a ∈ cmd.args, ∀ b ∈ cmd.args, std_string_case_eq a.lf b.lf → a.lf = b.lf

section Help
variable {T : Table} {console : Console} {cmd : Command} {s u : State} {es : List Event} {t : Chars}
  {cVal : Option Chars} {o : Outcome}

end Help

section Given
variable {cmd : Command} {t : Chars} {cVal : Option Chars} {es fs : List Event}

/-- What a vector can ask for: the argument is one of the command, and an option is only set. -/
def Fair (cmd : Command) : Event → Prop
  | .positional _ => True
  | .fresh a => a ∈ cmd.args
  | .give a v => a ∈ cmd.args ∧ (a.option → v = "1".toList)

theorem check_mem {lf : Chars} {sf : Char} {a : Arg} (h : cmd.check lf sf = some a) :
    a ∈ cmd.args :=
  List.mem_of_find?_eq_some h

theorem longScript_fair (name : Chars) : (∀ e ∈ (longScript cmd name cVal).1, Fair cmd e) ∧
    ∀ a, (longScript cmd name cVal).2 = .value a → a ∈ cmd.args ∧ a.option = false := by
  unfold longScript
  cases hcheck : cmd.check name NOSF with
  | none => simp
  | some b =>
    have hb := check_mem hcheck
    dsimp only
    split_ifs with hprompt hh hoption
    · simp
    · simp
    · cases cVal <;> simp [Fair, hb]
    · cases cVal <;> simp [Fair, hb, hoption]

theorem shortScript_fair (flags : Chars) : (∀ e ∈ (shortScript cmd cVal flags).1, Fair cmd e) ∧
    ∀ a, (shortScript cmd cVal flags).2 = .value a → a ∈ cmd.args ∧ a.option = false := by
  induction flags with
  | nil => simp [shortScript]
  | cons c flags ih =>
    unfold shortScript
    cases hcheck : cmd.check [] c with
    | none => simp
    | some b =>
      have hb := check_mem hcheck
      dsimp only
      split_ifs with hh hoption hrest
      · simp
      · cases cVal with
        | none =>
          refine ⟨fun e he => ?_, ih.2⟩
          rcases List.mem_cons.mp he with rfl | he
          · exact ⟨hb, fun _ => rfl⟩
          · exact ih.1 e he
        | some val => simp
      · simp
      · cases cVal <;> simp [Fair, hb, hoption]

theorem tokenScript_fair (cmd : Command) (t : Chars) : (∀ e ∈ (tokenScript cmd t).1, Fair cmd e) ∧
    ∀ a, (tokenScript cmd t).2 = .value a → a ∈ cmd.args ∧ a.option = false := by
  unfold tokenScript flagScript
  split_ifs
  · simp [Fair]
  · match isValid (cArg t) with
    | 0 => simp
    | 1 => exact shortScript_fair _
    | 2 => exact longScript_fair _
    | _ + 3 => exact shortScript_fair _

theorem script_fair (argv : List Chars) : ∀ e ∈ (script cmd argv).1, Fair cmd e := by
  induction argv using script.induct cmd with
  | case1 => exact fun e he => absurd he List.not_mem_nil
  | case2 t argv es ht ih =>
    have hfair := (tokenScript_fair cmd t).1
    rw [ht] at hfair
    rw [script, ht]
    intro e he
    exact (List.mem_append.mp he).elim (hfair e) (ih e)
  | case3 t argv es ht =>
    have hfair := (tokenScript_fair cmd t).1
    rw [ht] at hfair
    rw [script, ht]
    exact hfair
  | case4 t argv es message ht =>
    have hfair := (tokenScript_fair cmd t).1
    rw [ht] at hfair
    rw [script, ht]
    exact hfair
  | case5 t es a ht =>
    have hfair := (tokenScript_fair cmd t).1
    rw [ht] at hfair
    rw [script, ht]
    exact hfair
  | case6 t es a ht v argv ih =>
    obtain ⟨hfair, hvalue⟩ := tokenScript_fair cmd t
    rw [ht] at hfair hvalue
    obtain ⟨ha, hoption⟩ := hvalue a rfl
    rw [script, ht]
    intro e he
    rcases List.mem_append.mp he with he | he
    · exact hfair e he
    · rcases List.mem_cons.mp he with rfl | he
      · exact ⟨ha, fun h => absurd (hoption.symm.trans h) Bool.false_ne_true⟩
      · exact ih e he

end Given

section Values
variable {E : KeyEq} {T : Table} {console : Console} {cmd : Command} {s u : State}
  {es : List Event} {argv : List Chars} {k v : Chars}

theorem found_eq (E : KeyEq) (s : State) (k : Chars) : s.found E.table k = (s.find E k).isSome := by
  rw [Bool.eq_iff_iff, State.find, FirstWins.find_isSome]
  unfold State.found KeyEq.table State.keys
  dsimp only
  rw [List.any_map, List.any_eq_true]
  rfl

theorem emplace_parsed (E : KeyEq) (s : State) (k v : Chars) :
    (s.emplace E.table k v).parsed = FirstWins.put E.toSame s.parsed k v := by
  unfold State.emplace FirstWins.put
  rw [found_eq]
  unfold State.find
  split_ifs
  · rfl
  · rfl

/-- The table has what is given, in its order. -/
theorem perform_parsed (h : perform E.table s es = .ok u) :
    u.parsed = FirstWins.puts E.toSame s.parsed (entriesOf es) := by
  replace h := performs h
  induction h with
  | nil => rfl
  | positional t _ ih => exact ih
  | fresh a _ ih => exact ih
  | give a v _ ih =>
    rw [ih, emplace_parsed]
    rfl

theorem mem_keys_emplace {j : Chars} (h : j ∈ (s.emplace T k v).keys) : j ∈ s.keys ∨ j = k := by
  unfold State.emplace at h
  split_ifs at h
  · exact .inl h
  · simpa [State.keys] using h

/-- Every key is the long name of an argument. -/
def Named (cmd : Command) (s : State) : Prop := ∀ k ∈ s.keys, ∃ a ∈ cmd.args, a.lf = k

theorem Named.emplace {a : Arg} (h : Named cmd s) (ha : a ∈ cmd.args) (v : Chars) :
    Named cmd (s.emplace T a.lf v) := by
  intro j hj
  rcases mem_keys_emplace hj with hj | rfl
  · exact h j hj
  · exact ⟨a, ha, rfl⟩

theorem Named.perform (h : Named cmd s) (hes : ∀ e ∈ es, Fair cmd e)
    (hperform : perform T s es = .ok u) : Named cmd u := by
  replace hperform := performs hperform
  induction hperform with
  | nil => exact h
  | positional t _ ih => exact ih h fun e he => hes e (List.mem_cons_of_mem _ he)
  | fresh a _ ih => exact ih h fun e he => hes e (List.mem_cons_of_mem _ he)
  | give a v _ ih =>
    have ha : a ∈ cmd.args := (hes _ List.mem_cons_self).1
    exact ih (h.emplace ha v) fun e he => hes e (List.mem_cons_of_mem _ he)

theorem Named.checkRequired (h : Named cmd s) (missing : List Chars) :
    Named cmd (checkRequired T console s missing cmd.args).state :=
  checkRequired_preserves (fun _ ha _ v hu => hu.emplace ha v) missing h

theorem named_of_empty (hs : s.parsed = []) : Named cmd s := by
  intro k hk
  rw [State.keys, hs] at hk
  exact absurd hk List.not_mem_nil

theorem Extends.find {w : Chars} (h : Extends s u) (hw : s.find E k = some w) :
    u.find E k = some w := by
  obtain ⟨ps, hps, -⟩ := h
  unfold State.find at hw ⊢
  rw [hps, FirstWins.find_append, hw]
  rfl

/-- What is given is found, under every name that the table takes for its own. -/
theorem find_entry (E : KeyEq) {a : Arg} (h : (a, v) ∈ givenOf es) (htest : E.test a.lf k) :
    ∃ w, FirstWins.find E.toSame (entriesOf es) k = some w := by
  have hmem : (a.lf, v) ∈ entriesOf es := List.mem_map.mpr ⟨(a, v), h, rfl⟩
  apply Option.isSome_iff_exists.mp
  exact (FirstWins.find_isSome E.toSame).mpr ⟨_, hmem, htest⟩

end Values

section Distinct
variable {T : Table} {console : Console} {cmd : Command} {s u : State} {es : List Event}
  {argv : List Chars} {a b : Arg}

theorem mem_keys_iff {k : Chars} : s.found eachCase.table k = true ↔ k ∈ s.keys := by
  unfold State.found KeyEq.table eachCase
  simp

/-- Where no two names are the same but for their case, every table finds the same. -/
theorem found_exact (hdistinct : CaseDistinct cmd) (hs : Named cmd s) (ha : a ∈ cmd.args) :
    s.found T a.lf = s.found eachCase.table a.lf := by
  rw [Bool.eq_iff_iff, mem_keys_iff]
  constructor
  · intro h
    obtain ⟨l, hl, heq⟩ := T.sound h
    obtain ⟨b, hb, rfl⟩ := hs l hl
    rw [← hdistinct b hb a ha heq]
    exact hl
  · exact fun h => T.mem h

/-- A name is that of one argument only. -/
theorem eq_of_lf (ha : a ∈ cmd.args) (hb : b ∈ cmd.args) (h : a.lf = b.lf) : a = b := by
  have hfound := check_long ha
  rw [h, check_long hb] at hfound
  exact (Option.some.inj hfound).symm

end Distinct

def upperArg : Arg := ⟨"Verbose".toList, 'o', false, false, [], false, []⟩

/-- The second name differs from the first in the case of a letter. -/
def caseCommand : Command := ⟨[upperArg, verboseArg], by decide⟩

end Suil.Utils.Args
