import Suil.Utils.Parsed

/-! Two vectors that ask for the same but for what they ask about one argument, and what they leave
for another one. -/
namespace Suil.Utils.Args
open CText (Chars)

/-- It is not about `a`. -/
def Event.off (a : Arg) : Event → Bool
  | .positional _ => true
  | .fresh c => c ≠ a
  | .give c _ => c ≠ a

/-- What is asked, without what is asked about `a`. -/
def others (cmd : Command) (a : Arg) (argv : List Chars) : List Event :=
  (script cmd argv).1.filter (Event.off a)

/-- The entries that are taken for one of `b`. -/
def State.entries (s : State) (b : Arg) : List (Chars × Chars) :=
  s.parsed.filter fun p => std_string_case_eq p.1 b.lf

section Asking
variable (T : Table) (console : Console)

/-- What the second loop does for one argument. -/
def ask (s : State) (a : Arg) : Except Chars State :=
  if !a.required || s.found T a.lf then .ok s
  else if a.prompt ≠ [] then requestValue T console s a
  else .ok s

/-- The state in which the second loop comes to the argument behind `args`, if no prompt is
left unanswered. -/
def asks (s : State) : List Arg → Except Chars State
  | [] => .ok s
  | a :: args =>
    match ask T console s a with
    | .error message => .error message
    | .ok s => asks s args

end Asking

/-- The long flag of `b` is refused, for `b` was passed. -/
def Passed (T : Table) (cmd : Command) (s : State) (b : Arg) (cVal : Option Chars) : Prop :=
  longFlag T cmd s b.lf cVal = .stop (s.refuse b.lf "' was already passed")

/-- The same is known of `b`. -/
structure SameFor (T : Table) (b : Arg) (s t : State) : Prop where
  found : s.found T b.lf = t.found T b.lf
  entries : s.entries b = t.entries b

/-- What is asked about `a` does not change what is known of `b`: not after any tokens that are read,
nor in the check that `b` was passed, nor where the second loop comes to `b`, nor at the end. -/
structure Independent (T : Table) (console : Console) (cmd : Command) (a b : Arg) : Prop where
  read : ∀ s pre pre' u u', s.parsed = [] → others cmd a pre = others cmd a pre' →
    after T cmd s pre = .ready u → after T cmd s pre' = .ready u' →
      SameFor T b u u' ∧ (∀ cVal, Passed T cmd u b cVal ↔ Passed T cmd u' b cVal) ∧
      ∀ args w w', args <+: cmd.args → asks T console u args = .ok w →
        asks T console u' args = .ok w' → SameFor T b w w'
  parsed : ∀ s argv argv', s.parsed = [] → others cmd a argv = others cmd a argv' →
    (parse T console cmd s argv).ending = .returned false →
    (parse T console cmd s argv').ending = .returned false →
      SameFor T b (parse T console cmd s argv).state (parse T console cmd s argv').state

/-- The key equality, the hash and the comparison at the registration tell the same names of the
command apart. -/
def Agree (cmd : Command) : Prop := ∀ a ∈ cmd.args, ∀ b ∈ cmd.args,
  (std_string_case_eq a.lf b.lf ↔ a.check NOSF b.lf) ∧
    ∀ hash : Chars → ℕ, std_string_case_eq a.lf b.lf → hash a.lf = hash b.lf

/-- Some vector gives `a` and asks for nothing else. -/
def Givable (cmd : Command) (a : Arg) : Prop := ∃ pre u v, others cmd a pre = [] ∧
  (a, v) ∈ givenOf (script cmd pre).1 ∧ after anyCase.table cmd nothing pre = .ready u

section Reading
variable {T : Table} {console : Console} {cmd : Command} {s u w : State} {es : List Event}
  {a b c : Arg} {cVal : Option Chars}

theorem step_go {n : Next} (h : n.step s = .go u) : n = .go ∧ s = u := by
  cases n with
  | go => exact ⟨rfl, Step.go.inj h⟩
  | value a => cases h
  | help => cases h
  | failed message => cases h

theorem step_value {n : Next} {lf : Chars} (h : n.step s = .value lf u) :
    (∃ a, n = .value a ∧ a.lf = lf) ∧ s = u := by
  cases n with
  | go => cases h
  | value a =>
    obtain ⟨rfl, rfl⟩ := Step.value.inj h
    exact ⟨⟨a, rfl, rfl⟩, rfl⟩
  | help => cases h
  | failed message => cases h

/-- Where a token does not end the parse, it has performed what it asks. -/
theorem take_eq {r : List Event × Next} (h : ∀ o, take T s r ≠ .stop o) :
    ∃ v, perform T s r.1 = .ok v ∧ take T s r = r.2.step v := by
  unfold take at h ⊢
  cases hperform : perform T s r.1 with
  | error o =>
    rw [hperform] at h
    exact absurd rfl (h o)
  | ok v => exact ⟨v, rfl, rfl⟩

/-- What is read without an error has performed what it asks. -/
theorem perform_after {pre : List Chars} (h : after T cmd s pre = .ready u) :
    perform T s (script cmd pre).1 = .ok u := by
  induction s, pre using after.induct T cmd with
  | case1 s => exact congrArg Except.ok (Position.ready.inj h)
  | case2 s t argv v ht ih =>
    rw [after, ht] at h
    rw [token_eq] at ht
    obtain ⟨v', hperform, hstep⟩ := take_eq fun o ho => Step.noConfusion (ht.symm.trans ho)
    obtain ⟨hnext, rfl⟩ := step_go (hstep.symm.trans ht)
    have hscript : tokenScript cmd t = ((tokenScript cmd t).1, .go) := Prod.ext rfl hnext
    rw [script, hscript]
    dsimp only
    rw [perform_append, hperform]
    exact ih h
  | case3 s t argv o ht =>
    rw [after, ht] at h
    cases h
  | case4 s t lf v ht =>
    rw [after, ht] at h
    cases h
  | case5 s t lf v ht w argv ih =>
    rw [after, ht] at h
    rw [token_eq] at ht
    obtain ⟨v', hperform, hstep⟩ := take_eq fun o ho => Step.noConfusion (ht.symm.trans ho)
    obtain ⟨⟨a, hnext, rfl⟩, rfl⟩ := step_value (hstep.symm.trans ht)
    have hscript : tokenScript cmd t = ((tokenScript cmd t).1, .value a) := Prod.ext rfl hnext
    rw [script, hscript]
    dsimp only
    rw [perform_append, hperform]
    exact ih h

/-- An argument that is asked for, or not, as the second loop accepts it. -/
theorem asks_checkRequired {missing : List Chars} {args : List Arg}
    (h : (checkRequired T console s missing args).ending = .returned false) :
    asks T console s args = .ok (checkRequired T console s missing args).state := by
  induction s, missing, args using checkRequired.induct T console with
  | case1 s => rfl
  | case2 s missing hne =>
    rw [checkRequired, if_neg hne] at h
    cases h
  | case3 s missing a args hskip ih =>
    rw [checkRequired, if_pos hskip] at h ⊢
    rw [asks, ask, if_pos hskip]
    exact ih h
  | case4 s missing a args hskip hp message hm =>
    rw [checkRequired, if_neg hskip, if_pos hp, hm] at h
    cases h
  | case5 s missing a args hskip hp v hv ih =>
    rw [checkRequired, if_neg hskip, if_pos hp, hv] at h ⊢
    rw [asks, ask, if_neg hskip, if_pos hp, hv]
    exact ih h
  | case6 s missing a args hskip hp ih =>
    rw [checkRequired, if_neg hskip, if_neg hp] at h ⊢
    rw [asks, ask, if_neg hskip, if_neg hp]
    exact ih h

theorem refuse_ne {name : Chars} {text text' : String} (h : text.toList ≠ text'.toList)
    (v : State) : Step.stop (u.refuse name text) ≠ .stop (v.refuse name text') := by
  intro heq
  have hmessage := Ending.thrown.inj (congrArg Outcome.ending (Step.stop.inj heq))
  exact h (List.append_cancel_left hmessage)

theorem passed_iff (hb : b ∈ cmd.args) :
    Passed T cmd u b cVal ↔ b.prompt = [] ∧ b.sf ≠ 'h' ∧ u.found T b.lf = true := by
  unfold Passed longFlag
  rw [check_long hb]
  dsimp only
  by_cases hprompt : b.prompt ≠ []
  · rw [if_pos hprompt]
    exact iff_of_false (refuse_ne (by decide) u) fun h => hprompt h.1
  · rw [if_neg hprompt]
    by_cases hh : b.sf = 'h'
    · rw [if_pos hh]
      refine iff_of_false (fun h => ?_) fun h => h.2.1 hh
      cases h
    · rw [if_neg hh]
      cases hfound : u.found T b.lf with
      | true =>
        rw [if_pos rfl]
        exact iff_of_true rfl ⟨not_not.mp hprompt, hh, rfl⟩
      | false =>
        rw [if_neg Bool.false_ne_true]
        refine iff_of_false (fun h => ?_) fun h => Bool.false_ne_true h.2.2
        revert h
        cases b.option with
        | true =>
          cases cVal with
          | none => exact fun h => Step.noConfusion h
          | some val => exact refuse_ne (by decide) u
        | false =>
          cases cVal with
          | none => exact fun h => Step.noConfusion h
          | some val => exact fun h => Step.noConfusion h

end Reading

/-- What `b` has after the events, if nothing else is taken for it. -/
def kept (b : Arg) (ps : List (Chars × Chars)) : List Event → List (Chars × Chars)
  | [] => ps
  | .positional _ :: es => kept b ps es
  | .fresh _ :: es => kept b ps es
  | .give c v :: es => kept b (if c = b ∧ ps = [] then [(b.lf, v)] else ps) es

/-- What a prompt gives for `a`. -/
def answer (console : Console) (a : Arg) : Chars :=
  (if a.hidden then readPasswd console a else readParam console a).getD []

/-- What `b` has where the second loop is done with `args`. -/
def settled (console : Console) (b : Arg) (ps : List (Chars × Chars)) :
    List Arg → List (Chars × Chars)
  | [] => ps
  | c :: args =>
    settled console b
      (if c = b ∧ b.required ∧ ps = [] ∧ b.prompt ≠ [] then [(b.lf, answer console b)] else ps) args

section Distinct
variable {T : Table} {console : Console} {cmd : Command} {s t u w : State} {es : List Event}
  {a b c : Arg}

theorem kept_filter (hab : a ≠ b) (ps : List (Chars × Chars)) (es : List Event) :
    kept b ps (es.filter (Event.off a)) = kept b ps es := by
  induction es generalizing ps with
  | nil => rfl
  | cons e es ih =>
    rw [List.filter_cons]
    cases e with
    | positional t => exact ih ps
    | fresh c =>
      split_ifs
      · exact ih ps
      · exact ih ps
    | give c v =>
      split_ifs with hoff
      · exact ih _
      · have hca : c = a := by simpa [Event.off] using hoff
        have hskip : ¬ (c = b ∧ ps = []) := fun h => hab (hca.symm.trans h.1)
        rw [kept, if_neg hskip]
        exact ih ps

theorem mem_entries {p : Chars × Chars} (hdistinct : CaseDistinct cmd) (hs : Named cmd s)
    (hb : b ∈ cmd.args) : p ∈ s.entries b ↔ p ∈ s.parsed ∧ p.1 = b.lf := by
  unfold State.entries
  rw [List.mem_filter]
  constructor
  · intro h
    obtain ⟨c, hc, hname⟩ := hs p.1 (List.mem_map_of_mem h.1)
    refine ⟨h.1, ?_⟩
    rw [← hname] at h ⊢
    exact hdistinct c hc b hb h.2
  · intro h
    refine ⟨h.1, ?_⟩
    rw [h.2]
    exact anyCase.refl b.lf

theorem found_iff (hdistinct : CaseDistinct cmd) (hs : Named cmd s) (hb : b ∈ cmd.args) :
    s.found T b.lf = true ↔ s.entries b ≠ [] := by
  rw [found_exact hdistinct hs hb, mem_keys_iff, State.keys, List.mem_map]
  constructor
  · intro h
    obtain ⟨p, hp⟩ := h
    exact List.ne_nil_of_mem ((mem_entries hdistinct hs hb).mpr hp)
  · intro h
    obtain ⟨p, hp⟩ := List.exists_mem_of_ne_nil _ h
    exact ⟨p, (mem_entries hdistinct hs hb).mp hp⟩

theorem entries_emplace (hdistinct : CaseDistinct cmd) (hs : Named cmd s) (hb : b ∈ cmd.args)
    (hc : c ∈ cmd.args) (v : Chars) : (s.emplace T c.lf v).entries b =
      if c = b ∧ s.entries b = [] then [(b.lf, v)] else s.entries b := by
  have hsame : std_string_case_eq c.lf b.lf ↔ c = b := by
    constructor
    · exact fun h => eq_of_lf hc hb (hdistinct c hc b hb h)
    · intro h
      rw [h]
      exact anyCase.refl b.lf
  unfold State.emplace
  by_cases hfound : s.found T c.lf = true
  · rw [if_pos hfound, if_neg]
    intro h
    rw [found_iff hdistinct hs hc, h.1] at hfound
    exact hfound h.2
  · rw [if_neg hfound]
    have happend : State.entries { s with parsed := s.parsed ++ [(c.lf, v)] } b =
        s.entries b ++ if std_string_case_eq c.lf b.lf then [(c.lf, v)] else [] := by
      unfold State.entries
      rw [List.filter_append, List.filter_singleton, Bool.cond_eq_ite]
    rw [happend]
    by_cases hcb : c = b
    · rw [found_iff hdistinct hs hc, hcb, not_not] at hfound
      rw [if_pos (hsame.mpr hcb), if_pos ⟨hcb, hfound⟩, hfound, hcb]
      rfl
    · rw [if_neg fun h => hcb (hsame.mp h), if_neg fun h => hcb h.1, List.append_nil]

/-- What `b` has after a vector depends on what is asked about `b` only. -/
theorem perform_entries (hdistinct : CaseDistinct cmd) (hs : Named cmd s) (hb : b ∈ cmd.args)
    (hes : ∀ e ∈ es, Fair cmd e) (h : perform T s es = .ok u) :
    u.entries b = kept b (s.entries b) es := by
  replace h := performs h
  induction h with
  | nil => rfl
  | positional t _ ih => exact ih hs fun e he => hes e (List.mem_cons_of_mem _ he)
  | fresh a _ ih => exact ih hs fun e he => hes e (List.mem_cons_of_mem _ he)
  | give c v _ ih =>
    have hc : c ∈ cmd.args := (hes _ List.mem_cons_self).1
    rw [ih (hs.emplace hc v) fun e he => hes e (List.mem_cons_of_mem _ he),
      entries_emplace hdistinct hs hb hc]
    rfl

theorem requestValue_answer (h : requestValue T console s a = .ok u) :
    u = s.emplace T a.lf (answer console a) := by
  unfold requestValue at h
  unfold answer
  split at h
  · rename_i result hresult
    rw [hresult]
    exact (Except.ok.inj h).symm
  · rename_i hresult
    rw [hresult]
    split_ifs at h
    exact (Except.ok.inj h).symm

theorem ask_entries (hdistinct : CaseDistinct cmd) (hs : Named cmd s) (hb : b ∈ cmd.args)
    (hc : c ∈ cmd.args) (h : ask T console s c = .ok u) : Named cmd u ∧ u.entries b =
      if c = b ∧ b.required ∧ s.entries b = [] ∧ b.prompt ≠ [] then [(b.lf, answer console b)]
      else s.entries b := by
  unfold ask at h
  split_ifs at h with hskip hprompt
  · obtain rfl := Except.ok.inj h
    refine ⟨hs, (if_neg fun hall => ?_).symm⟩
    obtain ⟨rfl, hrequired, hnone, -⟩ := hall
    rw [hrequired] at hskip
    exact (found_iff hdistinct hs hc).mp hskip hnone
  · obtain rfl := requestValue_answer h
    refine ⟨hs.emplace hc _, ?_⟩
    rw [entries_emplace hdistinct hs hb hc]
    by_cases hcb : c = b
    · subst hcb
      have hmissing : c.required ∧ ¬ s.found T c.lf = true := by simpa using hskip
      have hnone : s.entries c = [] := by
        rw [found_iff hdistinct hs hc] at hmissing
        exact not_not.mp hmissing.2
      rw [if_pos ⟨rfl, hnone⟩, if_pos ⟨rfl, hmissing.1, hnone, hprompt⟩]
    · rw [if_neg fun h => hcb h.1, if_neg fun h => hcb h.1]
  · obtain rfl := Except.ok.inj h
    refine ⟨hs, (if_neg fun hall => ?_).symm⟩
    obtain ⟨rfl, -, -, hne⟩ := hall
    exact hprompt hne

theorem asks_entries (hdistinct : CaseDistinct cmd) (hs : Named cmd s) (hb : b ∈ cmd.args)
    {args : List Arg} (hargs : ∀ c ∈ args, c ∈ cmd.args) (h : asks T console s args = .ok u) :
    Named cmd u ∧ u.entries b = settled console b (s.entries b) args := by
  induction args generalizing s with
  | nil =>
    obtain rfl := Except.ok.inj h
    exact ⟨hs, rfl⟩
  | cons c args ih =>
    rw [asks] at h
    cases hask : ask T console s c with
    | error message =>
      rw [hask] at h
      cases h
    | ok v =>
      rw [hask] at h
      obtain ⟨hv, hentries⟩ := ask_entries hdistinct hs hb (hargs c List.mem_cons_self) hask
      obtain ⟨hu, hrest⟩ := ih hv (fun a ha => hargs a (List.mem_cons_of_mem c ha)) h
      refine ⟨hu, ?_⟩
      rw [hrest, hentries]
      rfl

theorem SameFor.of_entries (hdistinct : CaseDistinct cmd) (hs : Named cmd s) (ht : Named cmd t)
    (hb : b ∈ cmd.args) (h : s.entries b = t.entries b) : SameFor T b s t where
  found := by
    rw [Bool.eq_iff_iff, found_iff hdistinct hs hb, found_iff hdistinct ht hb, h]
  entries := h

/-- The same holds of `b` after vectors that agree but for `a`. -/
theorem sameFor_read {pre pre' : List Chars} {u' : State} (hdistinct : CaseDistinct cmd)
    (hs : Named cmd s) (hb : b ∈ cmd.args) (hab : a ≠ b)
    (hothers : others cmd a pre = others cmd a pre') (hu : perform T s (script cmd pre).1 = .ok u)
    (hu' : perform T s (script cmd pre').1 = .ok u') : SameFor T b u u' := by
  have hfair : ∀ e ∈ (script cmd pre).1, Fair cmd e := script_fair pre
  have hfair' : ∀ e ∈ (script cmd pre').1, Fair cmd e := script_fair pre'
  apply SameFor.of_entries hdistinct (hs.perform hfair hu) (hs.perform hfair' hu') hb
  rw [perform_entries hdistinct hs hb hfair hu, perform_entries hdistinct hs hb hfair' hu',
    ← kept_filter hab, ← kept_filter hab _ (script cmd pre').1]
  exact congrArg (kept b (s.entries b)) hothers

theorem sameFor_asks {args : List Arg} {w' u' : State} (hdistinct : CaseDistinct cmd)
    (hu : Named cmd u) (hu' : Named cmd u') (hb : b ∈ cmd.args)
    (hargs : ∀ c ∈ args, c ∈ cmd.args) (h : SameFor T b u u')
    (hw : asks T console u args = .ok w) (hw' : asks T console u' args = .ok w') :
    SameFor T b w w' := by
  obtain ⟨hnamed, hentries⟩ := asks_entries hdistinct hu hb hargs hw
  obtain ⟨hnamed', hentries'⟩ := asks_entries hdistinct hu' hb hargs hw'
  apply SameFor.of_entries hdistinct hnamed hnamed' hb
  rw [hentries, hentries', h.entries]

theorem independent (hdistinct : CaseDistinct cmd) (hb : b ∈ cmd.args) (hab : a ≠ b) :
    Independent T console cmd a b where
  read s pre pre' u u' hs hothers hu hu' := by
    have hnamed : Named cmd s := named_of_empty hs
    have hperform := perform_after hu
    have hperform' := perform_after hu'
    have hsame := sameFor_read hdistinct hnamed hb hab hothers hperform hperform'
    refine ⟨hsame, fun cVal => ?_, fun args w w' hargs hw hw' => ?_⟩
    · rw [passed_iff hb, passed_iff hb, hsame.found]
    · exact sameFor_asks hdistinct (hnamed.perform (script_fair pre) hperform)
        (hnamed.perform (script_fair pre') hperform') hb (fun c hc => hargs.subset hc) hsame hw hw'
  parsed s argv argv' hs hothers h h' := by
    have hnamed : Named cmd s := named_of_empty hs
    obtain ⟨u, hu, -, hparse⟩ := parse_accepted h
    obtain ⟨u', hu', -, hparse'⟩ := parse_accepted h'
    have hsame := sameFor_read hdistinct hnamed hb hab hothers hu hu'
    rw [hparse] at h ⊢
    rw [hparse'] at h' ⊢
    exact sameFor_asks hdistinct (hnamed.perform (script_fair argv) hu)
      (hnamed.perform (script_fair argv') hu') hb (fun c hc => hc) hsame
      (asks_checkRequired h) (asks_checkRequired h')

theorem agree_iff (cmd : Command) : Agree cmd ↔ CaseDistinct cmd := by
  have hcheck : ∀ a b : Arg, a.check NOSF b.lf = true ↔ a.lf = b.lf := by
    intro a b
    have hname : a.check NOSF b.lf = true ↔ b.lf = a.lf := by simp [Arg.check]
    exact hname.trans eq_comm
  constructor
  · intro h a ha b hb heq
    exact (hcheck a b).mp ((h a ha b hb).1.mp heq)
  · intro h a ha b hb
    rw [hcheck]
    refine ⟨⟨h a ha b hb, fun hname => ?_⟩, fun hash heq => congrArg hash (h a ha b hb heq)⟩
    rw [hname]
    exact anyCase.refl b.lf

/-- What is given under a name that the key equality takes for that of `b` is found as `b`. -/
theorem not_independent (hcase : std_string_case_eq a.lf b.lf) (ha : Givable cmd a) :
    ¬ Independent anyCase.table console cmd a b := by
  intro h
  obtain ⟨pre, u, v, hothers, hgiven, hu⟩ := ha
  have hsame := (h.read nothing pre [] u nothing rfl hothers hu rfl).1.found
  obtain ⟨e, he⟩ := find_entry anyCase hgiven hcase
  have hfound : u.found anyCase.table b.lf = true := by
    rw [found_eq, State.find, perform_parsed (perform_after hu), FirstWins.find_puts, he]
    rfl
  rw [hfound] at hsame
  cases hsame

end Distinct

/-- The arguments of a command are independent of each other, and the comparisons agree, exactly
when no two long names differ in the case of their letters only. Otherwise one of two that do is
found when the other is given. -/
theorem independent_iff (cmd : Command) :
    ((∀ T console, ∀ a ∈ cmd.args, ∀ b ∈ cmd.args, a.lf ≠ b.lf →
      Independent T console cmd a b) ∧ Agree cmd ↔ CaseDistinct cmd) ∧
    ∀ console, ∀ a ∈ cmd.args, ∀ b ∈ cmd.args, a.lf ≠ b.lf → std_string_case_eq a.lf b.lf →
      Givable cmd a → ¬ Independent anyCase.table console cmd a b := by
  constructor
  · constructor
    · exact fun h => (agree_iff cmd).mp h.2
    · intro hdistinct
      refine ⟨fun T console a _ b hb hne => ?_, (agree_iff cmd).mpr hdistinct⟩
      exact independent hdistinct hb fun hab => hne (congrArg Arg.lf hab)
  · exact fun console a _ b _ _ hcase ha => not_independent hcase ha

/-- `--Verbose x` makes `verbose` passed. -/
theorem not_independent_case : ¬ ∀ T console cmd, ∀ a ∈ cmd.args, ∀ b ∈ cmd.args, a.lf ≠ b.lf →
    Independent T console cmd a b := by
  intro h
  have hall := h anyCase.table silent caseCommand upperArg List.mem_cons_self verboseArg
    (List.mem_cons_of_mem _ List.mem_cons_self) (by decide)
  have hsame := (hall.read nothing ["--Verbose".toList, "x".toList] [] _ nothing rfl rfl rfl rfl).1
  have hfound := hsame.found
  revert hfound
  decide

end Suil.Utils.Args
