import Suil.Utils.Assigned

/-! The spellings of a flag. The branch for letters asks neither whether the argument was passed
before nor whether it may only be given through a prompt. -/
namespace Suil.Utils.Args
open CText (Chars)

/-- Both throw, or both accept with the same help result, `mParsed` and `mPositionals`. -/
structure Alike (o o' : Outcome) : Prop where
  result : o.ending.result = o'.ending.result
  parsed : o.ending.result ≠ none → o.state.parsed.Perm o'.state.parsed
  positionals : o.ending.result ≠ none → o.state.positionals = o'.state.positionals

theorem Alike.refl (o : Outcome) : Alike o o := ⟨rfl, fun _ => List.Perm.refl _, fun _ => rfl⟩

/-- Two exceptions, whatever they say. -/
theorem Alike.of_thrown {o o' : Outcome} (h : o.ending.result = none)
    (h' : o'.ending.result = none) : Alike o o' :=
  ⟨h.trans h'.symm, fun hne => absurd h hne, fun hne => absurd h hne⟩

/-- The token `--lf` and the token `-s`, without a value or with the same one. -/
inductive Spellings (a : Arg) : Chars → Chars → Prop
  | plain : Spellings a a.long a.short
  | assigned (v : Chars) : Spellings a (assign a.long v) (assign a.short v)

/-- The state at a flag whose two branches make no difference. -/
structure Spelled (T : Table) (cmd : Command) (a : Arg) (s : State) : Prop where
  uncut : '=' ∉ a.lf
  valid : isValid a.long = 2
  letter : cmd.check [] a.sf = some a
  direct : a.prompt = []
  fresh : a.sf = 'h' ∨ s.found T a.lf = false

section Spelling
variable {T : Table} {console : Console} {cmd : Command} {s u : State} {a b : Arg} {v : Chars}
  {post : List Chars} {c : Char} {flags : Chars}

theorem ne_of_isAlpha {d : Char} (hc : c.isAlpha) (hd : d.isAlpha = false) : c ≠ d := by
  rintro rfl
  exact Bool.false_ne_true (hd.symm.trans hc)

theorem isValid_letters (hc : c.isAlpha) : isValid ('-' :: c :: flags) = 1 := by
  simp only [isValid]
  rw [if_pos (ne_of_isAlpha hc (by decide)), if_pos hc]

theorem token_letters (hflags : ∀ d ∈ c :: flags, d.isAlpha) :
    token T cmd s ('-' :: c :: flags) = shortFlags T cmd none s (c :: flags) := by
  have hno : '=' ∉ '-' :: c :: flags := by
    intro hmem
    rcases List.mem_cons.mp hmem with h | h
    · exact absurd h (by decide)
    · exact ne_of_isAlpha (hflags _ h) (by decide) rfl
  have hhead : ¬ ('-' :: c :: flags).head? ≠ some '-' := fun h => h rfl
  rw [token, cArg_eq hno, cVal_eq hno, if_neg hhead, flag,
    isValid_letters (hflags c List.mem_cons_self)]
  rfl

/-- What both branches do with a flag that they do not refuse, but for a text. -/
def Arg.given (T : Table) (a : Arg) (s : State) (text : String) : Option Chars → Step
  | none =>
    if a.sf = 'h' then .stop ⟨.returned true, s⟩
    else if a.option then .go (s.emplace T a.lf "1".toList)
    else .value a.lf s
  | some val =>
    if a.sf = 'h' then .stop ⟨.returned true, s⟩
    else if a.option then .stop (s.refuse a.lf text)
    else .go (s.emplace T a.lf val)

/-- The letter of `a` alone. -/
theorem shortFlags_letter (hcheck : cmd.check [] a.sf = some a) (cVal : Option Chars) :
    shortFlags T cmd cVal s [a.sf] =
      a.given T s "' assigned a value but it's an option" cVal := by
  have hlast : ¬ ([] : Chars) ≠ [] := fun h => h rfl
  rw [shortFlags, hcheck]
  dsimp only
  rw [if_neg hlast]
  cases cVal <;> rfl

/-- The long name where neither check stands in the way. -/
theorem longFlag_spelled (ha : a ∈ cmd.args) (hs : Spelled T cmd a s) (cVal : Option Chars) :
    longFlag T cmd s a.lf cVal = a.given T s "' does not take a value" cVal := by
  have hdirect : ¬ a.prompt ≠ [] := fun h => h hs.direct
  rw [longFlag, check_long ha]
  dsimp only
  rw [if_neg hdirect]
  by_cases hh : a.sf = 'h'
  · cases cVal with
    | none => rw [if_pos hh, Arg.given, if_pos hh]
    | some val => rw [if_pos hh, Arg.given, if_pos hh]
  · have hfresh : ¬ s.found T a.lf = true := by
      rw [hs.fresh.resolve_left hh]
      exact Bool.false_ne_true
    cases cVal with
    | none => rw [if_neg hh, if_neg hfresh, Arg.given, if_neg hh]
    | some val => rw [if_neg hh, if_neg hfresh, Arg.given, if_neg hh]

theorem no_eq_short (hletter : a.sf.isAlpha) : '=' ∉ a.short := by
  have hne : a.sf ≠ '=' := ne_of_isAlpha hletter (by decide)
  simp [Arg.short, Ne.symm hne]

theorem isValid_short (hletter : a.sf.isAlpha) : isValid a.short ≠ 0 := by
  rw [Arg.short, isValid_letters hletter]
  decide

/-- Each spelling reaches its branch, with nothing or with an empty value. -/
theorem token_spelled {t t' : Chars} (ht : Spellings a t t') (huncut : '=' ∉ a.lf)
    (hvalid : isValid a.long ≠ 0) (hletter : a.sf.isAlpha) :
    ∃ cVal, token T cmd s t = longFlag T cmd s a.lf cVal ∧
      token T cmd s t' = shortFlags T cmd cVal s [a.sf] := by
  have hno : '=' ∉ a.long := no_eq_long huncut
  have hlong : ∀ v, token T cmd s (assign a.long v) = flag T cmd s a.long (some []) ∧
      token T cmd s a.long = flag T cmd s a.long none := fun v => token_flag rfl hno
  have hshort : ∀ v, token T cmd s (assign a.short v) = flag T cmd s a.short (some []) ∧
      token T cmd s a.short = flag T cmd s a.short none :=
    fun v => token_flag rfl (no_eq_short hletter)
  cases ht with
  | plain =>
    refine ⟨none, ?_, ?_⟩
    · rw [(hlong []).2, flag_long none hvalid]
    · rw [(hshort []).2, flag_short none (isValid_short hletter)]
  | assigned v =>
    refine ⟨some [], ?_, ?_⟩
    · rw [(hlong v).1, flag_long _ hvalid]
    · rw [(hshort v).1, flag_short _ (isValid_short hletter)]

/-- Both branches do the same, but for the text that refuses a value of an option. -/
theorem alike_of_spelled (ha : a ∈ cmd.args) (hletter : a.sf.isAlpha) (hs : Spelled T cmd a s)
    {t t' : Chars} (ht : Spellings a t t') :
    Alike (parse T console cmd s (t :: post)) (parse T console cmd s (t' :: post)) := by
  have hvalid : isValid a.long ≠ 0 := by
    rw [hs.valid]
    decide
  obtain ⟨cVal, hlong, hshort⟩ : ∃ cVal, token T cmd s t = longFlag T cmd s a.lf cVal ∧
      token T cmd s t' = shortFlags T cmd cVal s [a.sf] :=
    token_spelled ht hs.uncut hvalid hletter
  rw [longFlag_spelled ha hs] at hlong
  rw [shortFlags_letter hs.letter] at hshort
  rw [parse, parse, hlong, hshort]
  cases cVal with
  | none => exact Alike.refl _
  | some val =>
    unfold Arg.given
    split_ifs
    · exact Alike.refl _
    · exact .of_thrown rfl rfl
    · exact Alike.refl _

theorem token_short (hletter : a.sf.isAlpha) (hcheck : cmd.check [] a.sf = some a) :
    token T cmd s a.short =
      if a.sf = 'h' then .stop ⟨.returned true, s⟩
      else if a.option then .go (s.emplace T a.lf "1".toList)
      else .value a.lf s := by
  have hno : '=' ∉ a.short := no_eq_short hletter
  rw [(token_flag (v := []) rfl hno).2, flag_short none (isValid_short hletter),
    shortFlags_letter hcheck]
  rfl

theorem emplace_eq (k v : Chars) : ∃ ps : List (Chars × Chars),
    s.emplace T k v = ⟨s.parsed ++ ps, s.positionals⟩ ∧ ∀ p ∈ ps, p.2 = v := by
  cases hfound : s.found T k with
  | true =>
    refine ⟨[], ?_, nofun⟩
    rw [emplace_of_found hfound, List.append_nil]
  | false =>
    refine ⟨[(k, v)], emplace_of_not_found hfound, ?_⟩
    intro p hp
    rw [List.mem_singleton.mp hp]

/-- The command accepts `post`, which gives no argument an empty value. -/
def Supplies (T : Table) (cmd : Command) (s : State) (post : List Chars) : Prop :=
  ∀ console, ∃ isHelp ps, parse T console cmd s post =
    ⟨.returned isHelp, ⟨s.parsed ++ ps, s.positionals⟩⟩ ∧ ∀ p ∈ ps, p.2 ≠ []

theorem Supplies.of_emplace {post' : List Chars} (hv : v ≠ [])
    (h : Supplies T cmd (s.emplace T a.lf v) post)
    (heq : ∀ console, parse T console cmd s post' =
      parse T console cmd (s.emplace T a.lf v) post) : Supplies T cmd s post' := by
  intro console
  obtain ⟨ps, hps, hval⟩ := emplace_eq (T := T) (s := s) a.lf v
  obtain ⟨isHelp, qs, hqs, hne⟩ := h console
  refine ⟨isHelp, ps ++ qs, ?_, ?_⟩
  · rw [heq, hqs, hps, List.append_assoc]
  · intro p hp
    rcases List.mem_append.mp hp with hp | hp
    · rw [hval p hp]
      exact hv
    · exact hne p hp

/-- An argument given by its letter, whether it was given before or not. -/
theorem supplies_short (hletter : a.sf.isAlpha) (hcheck : cmd.check [] a.sf = some a)
    (h : ∀ v, v ≠ [] → ∃ post, Supplies T cmd (s.emplace T a.lf v) post) :
    ∃ post, Supplies T cmd s (a.short :: post) := by
  have htoken := token_short (T := T) (s := s) hletter hcheck
  by_cases hh : a.sf = 'h'
  · rw [if_pos hh] at htoken
    refine ⟨[], fun console => ⟨true, [], ?_, nofun⟩⟩
    rw [parse_stop htoken, List.append_nil]
  · rw [if_neg hh] at htoken
    cases hoption : a.option with
    | true =>
      rw [hoption, if_pos rfl] at htoken
      obtain ⟨post, hpost⟩ := h "1".toList (by decide)
      exact ⟨post, hpost.of_emplace (by decide) fun console => parse_go htoken post⟩
    | false =>
      rw [hoption, if_neg Bool.false_ne_true] at htoken
      obtain ⟨post, hpost⟩ := h "x".toList (by decide)
      exact ⟨"x".toList :: post, hpost.of_emplace (by decide) fun console =>
        parse_value htoken _ post⟩

theorem checkRequired_of_found {args : List Arg}
    (h : ∀ a ∈ args, a.required → s.found T a.lf) :
    checkRequired T console s [] args = ⟨.returned false, s⟩ := by
  induction args with
  | nil => rfl
  | cons a args ih =>
    have hskip : !a.required || s.found T a.lf := by
      cases hrequired : a.required with
      | false => rfl
      | true => exact h a List.mem_cons_self hrequired
    rw [checkRequired, if_pos hskip]
    exact ih fun b hb => h b (List.mem_cons_of_mem _ hb)

/-- The arguments that `mParsed` has no key of. -/
def Command.absent (cmd : Command) (s : State) : List Arg :=
  cmd.args.filter fun a => !s.keys.contains a.lf

theorem absent_emplace (ha : a ∈ cmd.args) (hs : s.found T a.lf = false) (v : Chars) :
    (cmd.absent (s.emplace T a.lf v)).length < (cmd.absent s).length := by
  have hkeys : (s.emplace T a.lf v).keys = s.keys ++ [a.lf] := by
    rw [emplace_of_not_found hs]
    simp [State.keys]
  have hfilter : cmd.absent (s.emplace T a.lf v) =
      (cmd.absent s).filter fun b => b.lf ≠ a.lf := by
    unfold Command.absent
    rw [List.filter_filter, hkeys]
    apply List.filter_congr
    intro b _
    simp [Bool.and_comm]
  rw [hfilter, List.length_filter_lt_length_iff_exists]
  refine ⟨a, ?_, by simp⟩
  have hnew : a.lf ∉ s.keys := not_mem_of_not_found hs
  simp [Command.absent, ha, hnew]

/-- What is required and missing can be given by its letter, one argument after the other. -/
theorem exists_supplies (hletters : ∀ a ∈ cmd.args, a.sf.isAlpha)
    (hcheck : ∀ a ∈ cmd.args, cmd.check [] a.sf = some a) (s : State) :
    ∃ post, Supplies T cmd s post := by
  induction hn : (cmd.absent s).length using Nat.strongRecOn generalizing s with
  | _ n ih =>
    by_cases hall : ∀ a ∈ cmd.args, a.required → s.found T a.lf
    · refine ⟨[], fun console => ⟨false, [], ?_, nofun⟩⟩
      rw [parse, checkRequired_of_found hall, List.append_nil]
    · push Not at hall
      obtain ⟨a, ha, -, hmissing⟩ := hall
      have hs : s.found T a.lf = false := Bool.not_eq_true _ ▸ hmissing
      have hless : ∀ v, v ≠ [] → ∃ post, Supplies T cmd (s.emplace T a.lf v) post := by
        intro v _
        exact ih _ (hn ▸ absent_emplace ha hs v) _ rfl
      obtain ⟨post, hpost⟩ := supplies_short (hletters a ha) (hcheck a ha) hless
      exact ⟨_, hpost⟩

theorem refused_short (hletter : a.sf.isAlpha) (hcheck : cmd.check [] a.sf = some a)
    (hh : a.sf ≠ 'h') (s : State) : ∃ post, ∀ console,
      (parse T console cmd s (a.short :: post)).ending.result = none := by
  have htoken := token_short (T := T) (s := s) hletter hcheck
  rw [if_neg hh] at htoken
  cases hoption : a.option with
  | true =>
    rw [hoption, if_pos rfl] at htoken
    refine ⟨["-".toList], fun console => ?_⟩
    rw [parse_go htoken]
    rfl
  | false =>
    rw [hoption, if_neg Bool.false_ne_true] at htoken
    refine ⟨[], fun console => ?_⟩
    rw [parse, htoken]
    rfl

theorem check_letter (hnames : ∀ b ∈ cmd.args, b.lf ≠ []) (ha : a ∈ cmd.args)
    (hletter : a.sf.isAlpha) : cmd.check [] a.sf = some a := by
  apply find_of_pairwise cmd.distinct ha
  · simp [Arg.check, ne_of_isAlpha hletter (show NOSF.isAlpha = false by decide)]
  · intro b hb hsf
    have hname : ([] == b.lf) = false := by
      rw [beq_eq_false_iff_ne]
      exact fun h => hnames b hb h.symm
    rw [Arg.check, Bool.or_eq_false_iff] at hsf
    rw [Arg.check, hsf.1, hname]
    rfl

/-- What the long form does where a check stands in its way. -/
inductive Hindered (T : Table) (cmd : Command) (a : Arg) (s : State) : Step → Prop
  | refused {o : Outcome} (h : o.ending.result = none) : Hindered T cmd a s (.stop o)
  | helped {b : Arg} (hb : b ∈ cmd.args) (hne : b ≠ a) (hh : b.sf = 'h') :
      Hindered T cmd a s (.stop ⟨.returned true, s⟩)
  | emptied {k : Chars} (hk : s.found T k = false) : Hindered T cmd a s (.go (s.emplace T k []))

theorem isValid_dashes (name : Chars) :
    isValid ('-' :: '-' :: name) = 0 ∨ isValid ('-' :: '-' :: name) = 2 := by
  cases name with
  | nil => exact .inl rfl
  | cons d name =>
    cases hd : d.isAlpha with
    | true => exact .inr (by simp [isValid, hd])
    | false => exact .inl (by simp [isValid, hd])

theorem check_long_eq {name : Chars} (h : cmd.check name NOSF = some b) :
    b ∈ cmd.args ∧ b.lf = name := by
  unfold Command.check at h
  have htest : b.check NOSF name = true := by
    simpa only using List.find?_some h
  have hname : name = b.lf := by
    simpa [Arg.check] using htest
  exact ⟨List.mem_of_find?_eq_some h, hname.symm⟩

theorem no_eq_cArg (t : Chars) : '=' ∉ cArg t := by
  induction t with
  | nil => exact List.not_mem_nil
  | cons c t ih =>
    rw [cArg_cons]
    split_ifs with hc
    · exact List.not_mem_nil
    · exact List.not_mem_cons_of_ne_of_not_mem (Ne.symm hc) ih

/-- A name that ends at its `'='` is that of another argument. -/
theorem hindered_cut (heq : '=' ∈ a.lf) : Hindered T cmd a s (token T cmd s a.long) := by
  have hcut : cArg a.long = '-' :: '-' :: cArg a.lf := by
    simp [Arg.long, cArg_cons]
  have hval : cVal a.long = some [] := by
    simp [Arg.long, cVal, heq]
  have hhead : ¬ ('-' :: '-' :: cArg a.lf).head? ≠ some '-' := fun h => h rfl
  rw [token, hcut, hval, if_neg hhead, flag]
  rcases isValid_dashes (cArg a.lf) with hvalid | hvalid
  · rw [hvalid]
    exact .refused rfl
  · rw [hvalid]
    show Hindered T cmd a s (longFlag T cmd s (cArg a.lf) (some []))
    unfold longFlag
    split
    · exact .refused rfl
    · next b hb =>
      obtain ⟨hmem, hname⟩ := check_long_eq hb
      have hne : b ≠ a := by
        intro h
        have hno : '=' ∉ b.lf := by
          rw [hname]
          exact no_eq_cArg _
        exact hno (h ▸ heq)
      split_ifs with hprompt hh hfound hoption
      · exact .refused rfl
      · exact .helped hmem hne hh
      · exact .refused rfl
      · exact .refused rfl
      · exact .emptied (Bool.not_eq_true _ ▸ hfound)

/-- Without `Spelled` the long form is refused, or its token is read as another one. -/
theorem hindered_long (ha : a ∈ cmd.args) (hcheck : cmd.check [] a.sf = some a)
    (hs : ¬ Spelled T cmd a s) : Hindered T cmd a s (token T cmd s a.long) := by
  by_cases heq : '=' ∈ a.lf
  · exact hindered_cut heq
  have hno : '=' ∉ a.long := no_eq_long heq
  rw [(token_flag (v := []) rfl hno).2]
  by_cases hvalid : isValid a.long = 0
  · rw [flag_invalid none hvalid]
    exact .refused rfl
  have htwo : isValid a.long = 2 := (isValid_dashes a.lf).resolve_left hvalid
  rw [flag_long none hvalid, longFlag, check_long ha]
  dsimp only
  split_ifs with hprompt hh hfound hoption
  · exact .refused rfl
  · exact absurd ⟨heq, htwo, hcheck, not_not.mp hprompt, .inl hh⟩ hs
  · exact .refused rfl
  · exact absurd ⟨heq, htwo, hcheck, not_not.mp hprompt, .inr (Bool.not_eq_true _ ▸ hfound)⟩ hs
  · exact absurd ⟨heq, htwo, hcheck, not_not.mp hprompt, .inr (Bool.not_eq_true _ ▸ hfound)⟩ hs

/-- Some tokens behind it tell the spellings of a hindered flag apart. -/
theorem not_alike (hletters : ∀ b ∈ cmd.args, b.sf.isAlpha) (hnames : ∀ b ∈ cmd.args, b.lf ≠ [])
    (ha : a ∈ cmd.args) (hs : Hindered T cmd a s (token T cmd s a.long)) :
    ∃ post, ¬ Alike (parse T console cmd s (a.long :: post))
      (parse T console cmd s (a.short :: post)) := by
  have hcheck : ∀ b ∈ cmd.args, cmd.check [] b.sf = some b :=
    fun b hb => check_letter hnames hb (hletters b hb)
  obtain ⟨post, hpost⟩ : ∃ post, Supplies T cmd s (a.short :: post) :=
    supplies_short (hletters a ha) (hcheck a ha) fun v _ => exists_supplies hletters hcheck _
  obtain ⟨isHelp, ps, hshort, hps⟩ := hpost console
  generalize hlong : token T cmd s a.long = step at hs
  cases hs with
  | refused hresult =>
    refine ⟨post, fun halike => ?_⟩
    have hsame := halike.result
    rw [parse_stop hlong, hshort, hresult] at hsame
    cases hsame
  | @helped b hb hne hh =>
    have hother : a.sf ≠ 'h' := by
      intro h
      have hfirst : some b = some a := by
        rw [← hcheck b hb, ← hcheck a ha, hh, h]
      exact hne (Option.some.inj hfirst)
    obtain ⟨post, hnone⟩ := refused_short (T := T) (hletters a ha) (hcheck a ha) hother s
    refine ⟨post, fun halike => ?_⟩
    have hsame := halike.result
    rw [parse_stop hlong, hnone] at hsame
    cases hsame
  | @emptied k hk =>
    refine ⟨post, fun halike => ?_⟩
    have hsome : (parse T console cmd s (a.long :: post)).ending.result ≠ none := by
      rw [halike.result, hshort]
      exact Option.some_ne_none isHelp
    have hmem : (k, []) ∈ (parse T console cmd s (a.long :: post)).state.parsed := by
      rw [parse_go hlong]
      exact mem_of_extends hk (extends_parse post)
    have hgiven : (k, []) ∈ s.parsed ++ ps := by
      have h := (halike.parsed hsome).mem_iff.mp hmem
      rw [hshort] at h
      exact h
    rcases List.mem_append.mp hgiven with hold | hnew
    · exact not_mem_parsed hk hold
    · exact hps _ hnew rfl

/-- The first letter of a cluster is read as a token of its own. -/
theorem parse_cluster_cons (hflags : flags ≠ []) (hletters : ∀ d ∈ c :: flags, d.isAlpha)
    (hoption : ∀ b, cmd.check [] c = some b → b.option) {argv : List Chars}
    (hargv : ∀ u, parse T console cmd u (('-' :: flags) :: post) = parse T console cmd u argv) :
    parse T console cmd s (('-' :: c :: flags) :: post) =
      parse T console cmd s (['-', c] :: argv) := by
  have hone : ∀ d ∈ [c], d.isAlpha := by
    intro d hd
    rw [List.mem_singleton.mp hd]
    exact hletters c List.mem_cons_self
  have hrest : ∀ d ∈ flags, d.isAlpha := fun d hd => hletters d (List.mem_cons_of_mem _ hd)
  have hcluster : token T cmd s ('-' :: c :: flags) = shortFlags T cmd none s (c :: flags) :=
    token_letters hletters
  have hletter : token T cmd s ['-', c] = shortFlags T cmd none s [c] := token_letters hone
  rw [shortFlags] at hcluster hletter
  cases hcheck : cmd.check [] c with
  | none =>
    rw [hcheck] at hcluster hletter
    rw [parse_stop hcluster, parse_stop hletter]
  | some b =>
    rw [hcheck] at hcluster hletter
    dsimp only at hcluster hletter
    by_cases hh : b.sf = 'h'
    · rw [if_pos hh] at hcluster hletter
      rw [parse_stop hcluster, parse_stop hletter]
    · rw [if_neg hh, if_pos (hoption b hcheck)] at hcluster hletter
      cases flags with
      | nil => exact absurd rfl hflags
      | cons d flags =>
        rw [parse_go hletter, ← hargv, parse, parse, hcluster, token_letters hrest]

theorem parse_cluster (hne : flags ≠ []) (hletters : ∀ d ∈ flags, d.isAlpha)
    (hoptions : ∀ d ∈ flags.dropLast, ∀ b, cmd.check [] d = some b → b.option) (s : State) :
    parse T console cmd s (('-' :: flags) :: post) =
      parse T console cmd s (flags.map (fun d => ['-', d]) ++ post) := by
  induction flags generalizing s with
  | nil => exact absurd rfl hne
  | cons c flags ih =>
    cases flags with
    | nil => rfl
    | cons d flags =>
      have hoption : ∀ b, cmd.check [] c = some b → b.option :=
        hoptions c (by simp)
      have hrest : ∀ u, parse T console cmd u (('-' :: d :: flags) :: post) =
          parse T console cmd u ((d :: flags).map (fun e => ['-', e]) ++ post) := by
        apply ih (by simp)
        · exact fun e he => hletters e (List.mem_cons_of_mem _ he)
        · exact fun e he => hoptions e (List.mem_cons_of_mem _ he)
      exact parse_cluster_cons (by simp) hletters hoption hrest

/-- What follows the tokens before it is read from the state they lead to, if at all. -/
theorem alike_append_iff {pre argv argv' : List Chars}
    (hflag : ∀ lf u, after T cmd s pre ≠ .waiting lf u) :
    Alike (parse T console cmd s (pre ++ argv)) (parse T console cmd s (pre ++ argv')) ↔
      ∀ u, after T cmd s pre = .ready u →
        Alike (parse T console cmd u argv) (parse T console cmd u argv') := by
  rw [parse_append, parse_append]
  generalize after T cmd s pre = position at hflag
  cases position with
  | ready u =>
    constructor
    · intro h w hw
      obtain rfl := Position.ready.inj hw
      exact h
    · exact fun h => h u rfl
  | waiting lf u => exact absurd rfl (hflag lf u)
  | done o => exact iff_of_true (Alike.refl o) fun u hu => Position.noConfusion hu

end Spelling

/-- Outside values the spellings of a flag agree before all that follows exactly when its argument
is new, has no prompt and a name that is one; a cluster always agrees with its letters. -/
theorem spelling_iff (T : Table) (cmd : Command) (hletters : ∀ b ∈ cmd.args, b.sf.isAlpha)
    (s : State) (pre : List Chars) (hflag : ∀ lf u, after T cmd s pre ≠ .waiting lf u) :
    (∀ a ∈ cmd.args,
      ((∀ u, after T cmd s pre = .ready u → Spelled T cmd a u) →
        ∀ t t', Spellings a t t' → ∀ console post,
          Alike (parse T console cmd s (pre ++ t :: post))
            (parse T console cmd s (pre ++ t' :: post))) ∧
      ((∀ b ∈ cmd.args, b.lf ≠ []) →
        (∀ t t', Spellings a t t' → ∀ console post,
          Alike (parse T console cmd s (pre ++ t :: post))
            (parse T console cmd s (pre ++ t' :: post))) →
        ∀ u, after T cmd s pre = .ready u → Spelled T cmd a u)) ∧
    ∀ flags, flags ≠ [] → (∀ c ∈ flags, c.isAlpha) →
      (∀ c ∈ flags.dropLast, ∀ b, cmd.check [] c = some b → b.option) → ∀ console post,
        Alike (parse T console cmd s (pre ++ ('-' :: flags) :: post))
          (parse T console cmd s (pre ++ flags.map (fun c => ['-', c]) ++ post)) := by
  constructor
  · intro a ha
    constructor
    · intro hs t t' ht console post
      rw [alike_append_iff hflag]
      exact fun u hu => alike_of_spelled ha (hletters a ha) (hs u hu) ht
    · intro hnames halike u hu
      by_contra hs
      have hcheck : cmd.check [] a.sf = some a := check_letter hnames ha (hletters a ha)
      obtain ⟨post, hpost⟩ : ∃ post, ¬ Alike (parse T silent cmd u (a.long :: post))
          (parse T silent cmd u (a.short :: post)) :=
        not_alike hletters hnames ha (hindered_long ha hcheck hs)
      exact hpost ((alike_append_iff hflag).mp (halike _ _ .plain silent post) u hu)
  · intro flags hne hflags hoptions console post
    rw [List.append_assoc, alike_append_iff hflag]
    intro u _
    rw [parse_cluster hne hflags hoptions]
    exact Alike.refl _

def verboseArg : Arg := ⟨"verbose".toList, 'v', true, false, [], false, []⟩

def verboseCommand : Command := ⟨[verboseArg], List.pairwise_singleton _ _⟩

theorem spelled_verbose : Spelled exactTable verboseCommand verboseArg nothing where
  uncut := by decide
  valid := by decide
  letter := by decide
  direct := rfl
  fresh := .inr (by decide)

/-- The first flag of a command that has one argument. -/
theorem spelling_iff_first :
    Alike (parse exactTable silent verboseCommand nothing [verboseArg.long])
      (parse exactTable silent verboseCommand nothing [verboseArg.short]) := by
  have hletters : ∀ b ∈ verboseCommand.args, b.sf.isAlpha := by decide
  have hflag : ∀ lf u, after exactTable verboseCommand nothing [] ≠ .waiting lf u :=
    fun lf u h => Position.noConfusion h
  have hnew : ∀ u, after exactTable verboseCommand nothing [] = .ready u →
      Spelled exactTable verboseCommand verboseArg u := by
    intro u hu
    obtain rfl := Position.ready.inj hu
    exact spelled_verbose
  have h := spelling_iff exactTable verboseCommand hletters nothing [] hflag
  exact (h.1 verboseArg List.mem_cons_self).1 hnew _ _ .plain silent []

/-- `-v -v` is accepted, `-v --verbose` is not. -/
theorem not_alike_again : ¬ Alike
    (parse exactTable silent verboseCommand nothing [verboseArg.short, verboseArg.long])
    (parse exactTable silent verboseCommand nothing [verboseArg.short, verboseArg.short]) := by
  intro h
  have hresult := h.result
  revert hresult
  decide

end Suil.Utils.Args
