import Suil.Utils.Args

/-! A value given with `'='` and a value given as the next token. The byte that `cVal` points at
has been overwritten, so the first is always empty. -/
namespace Suil.Utils.Args
open CText (Chars)

section Reading
variable (T : Table) (console : Console) (cmd : Command)

/-- Where the loop over `argv` stands: at a token, at the value of an argument, or behind. -/
inductive Position
  | ready (s : State)
  | waiting (lf : Chars) (s : State)
  | done (o : Outcome)

def after (s : State) : List Chars → Position
  | [] => .ready s
  | t :: argv =>
    match token T cmd s t with
    | .go s => after s argv
    | .stop o => .done o
    | .value lf s =>
      match argv with
      | [] => .waiting lf s
      | v :: argv => after (s.emplace T lf v) argv

def Position.parse (argv : List Chars) : Position → Outcome
  | .ready s => Args.parse T console cmd s argv
  | .waiting lf s =>
    match argv with
    | [] => s.refuse lf "' expects a value"
    | v :: argv => Args.parse T console cmd (s.emplace T lf v) argv
  | .done o => o

/-- The tokens are read from the first to the last. -/
theorem parse_append (s : State) (pre argv : List Chars) :
    parse T console cmd s (pre ++ argv) = (after T cmd s pre).parse T console cmd argv := by
  induction s, pre using after.induct T cmd with
  | case1 s => rfl
  | case2 s t pre u ht ih =>
    rw [List.cons_append, parse, after, ht]
    exact ih
  | case3 s t pre o ht =>
    rw [List.cons_append, parse, after, ht]
    rfl
  | case4 s t lf u ht =>
    rw [List.cons_append, parse, after, ht]
    cases argv <;> rfl
  | case5 s t lf u ht v pre ih =>
    rw [List.cons_append, parse, after, ht]
    exact ih

end Reading

/-- Nothing that `s` has parsed is lost or changed in `t`. -/
def Extends (s t : State) : Prop :=
  ∃ ps, t.parsed = s.parsed ++ ps ∧ ∀ p ∈ ps, p.1 ∉ s.keys

section Extends
variable {T : Table} {console : Console} {cmd : Command} {s t u : State}

theorem Extends.refl (s : State) : Extends s s :=
  ⟨[], (List.append_nil _).symm, nofun⟩

theorem keys_append {ps : List (Chars × Chars)} (h : t.parsed = s.parsed ++ ps) :
    t.keys = s.keys ++ ps.map Prod.fst := by
  unfold State.keys
  rw [h, List.map_append]

theorem Extends.trans (h : Extends s t) (h' : Extends t u) : Extends s u := by
  obtain ⟨ps, hps, hfresh⟩ := h
  obtain ⟨qs, hqs, hfresh'⟩ := h'
  refine ⟨ps ++ qs, by rw [hqs, hps, List.append_assoc], fun p hp => ?_⟩
  rcases List.mem_append.mp hp with hp | hp
  · exact hfresh p hp
  · have hnot := hfresh' p hp
    rw [keys_append hps] at hnot
    exact fun hm => hnot (List.mem_append_left _ hm)

theorem not_mem_of_not_found {k : Chars} (h : s.found T k = false) : k ∉ s.keys := by
  intro hm
  have hfound : s.found T k = true := T.mem hm
  exact absurd (hfound.symm.trans h) nofun

theorem extends_emplace (k v : Chars) : Extends s (s.emplace T k v) := by
  unfold State.emplace
  split_ifs with hk
  · exact Extends.refl s
  · refine ⟨[(k, v)], rfl, fun p hp => ?_⟩
    rw [List.mem_singleton.mp hp]
    exact not_mem_of_not_found (Bool.not_eq_true _ ▸ hk)

/-- The state that a token leaves. -/
def Step.state : Step → State
  | .go s => s
  | .value _ s => s
  | .stop o => o.state

theorem extends_longFlag (name : Chars) (cVal : Option Chars) :
    Extends s (longFlag T cmd s name cVal).state := by
  unfold longFlag
  split
  · exact Extends.refl s
  · split_ifs
    · exact Extends.refl s
    · exact Extends.refl s
    · exact Extends.refl s
    · cases cVal with
      | none => exact extends_emplace _ _
      | some _ => exact Extends.refl s
    · cases cVal with
      | none => exact Extends.refl s
      | some val => exact extends_emplace _ _

theorem extends_shortFlags (cVal : Option Chars) (flags : Chars) :
    Extends s (shortFlags T cmd cVal s flags).state := by
  induction flags generalizing s with
  | nil => exact Extends.refl s
  | cons c flags ih =>
    unfold shortFlags
    split
    · exact Extends.refl s
    · split_ifs
      · exact Extends.refl s
      · cases cVal with
        | none => exact (extends_emplace _ _).trans ih
        | some _ => exact Extends.refl s
      · exact Extends.refl s
      · cases cVal with
        | none => exact Extends.refl s
        | some val => exact extends_emplace _ _

theorem extends_token (v : Chars) : Extends s (token T cmd s v).state := by
  unfold token flag
  split_ifs
  · exact Extends.refl s
  · split
    · exact Extends.refl s
    · exact extends_longFlag _ _
    · exact extends_shortFlags _ _

theorem extends_of_token {v : Chars} {step : Step} (h : token T cmd s v = step) :
    Extends s step.state := by
  rw [← h]
  exact extends_token v

theorem requestValue_eq {a : Arg} (h : requestValue T console s a = .ok u) :
    ∃ v, u = s.emplace T a.lf v := by
  unfold requestValue at h
  split at h
  · exact ⟨_, (Except.ok.inj h).symm⟩
  · split_ifs at h
    exact ⟨_, (Except.ok.inj h).symm⟩

/-- What no value changes is kept by the second loop. -/
theorem checkRequired_preserves {P : State → Prop} {args : List Arg}
    (hargs : ∀ a ∈ args, ∀ s v, P s → P (s.emplace T a.lf v)) (missing : List Chars) (h : P s) :
    P (checkRequired T console s missing args).state := by
  induction s, missing, args using checkRequired.induct T console with
  | case1 s => exact h
  | case2 s missing hne =>
    rw [checkRequired, if_neg hne]
    exact h
  | case3 s missing a args hskip ih =>
    rw [checkRequired, if_pos hskip]
    exact ih (fun b hb => hargs b (List.mem_cons_of_mem a hb)) h
  | case4 s missing a args hskip hp message hm =>
    rw [checkRequired, if_neg hskip, if_pos hp, hm]
    exact h
  | case5 s missing a args hskip hp u hu ih =>
    obtain ⟨v, rfl⟩ := requestValue_eq hu
    rw [checkRequired, if_neg hskip, if_pos hp, hu]
    apply ih
    · exact fun b hb => hargs b (List.mem_cons_of_mem a hb)
    · exact hargs a List.mem_cons_self s v h
  | case6 s missing a args hskip hp ih =>
    rw [checkRequired, if_neg hskip, if_neg hp]
    exact ih (fun b hb => hargs b (List.mem_cons_of_mem a hb)) h

theorem extends_checkRequired (missing : List Chars) (args : List Arg) :
    Extends s (checkRequired T console s missing args).state := by
  apply checkRequired_preserves (P := fun u => Extends s u)
  · exact fun a _ u v hu => hu.trans (extends_emplace a.lf v)
  · exact Extends.refl s

theorem extends_parse (argv : List Chars) : Extends s (parse T console cmd s argv).state := by
  induction s, argv using parse.induct T cmd with
  | case1 s => exact extends_checkRequired _ _
  | case2 s t argv u ht ih =>
    have htoken : Extends s u := extends_of_token ht
    rw [parse, ht]
    exact htoken.trans ih
  | case3 s t argv o ht =>
    rw [parse, ht]
    exact extends_of_token ht
  | case4 s t lf u ht =>
    rw [parse, ht]
    exact extends_of_token ht
  | case5 s t lf u ht v argv ih =>
    have htoken : Extends s u := extends_of_token ht
    rw [parse, ht]
    exact (htoken.trans (extends_emplace lf v)).trans ih

end Extends

/-- The flag returned, or nothing after an exception. -/
def Ending.result : Ending → Option Bool
  | .returned isHelp => some isHelp
  | .thrown _ => none

/-- Both throw or return the same flag, with the same contents of `mParsed` and the same
`mPositionals`. -/
structure Same (o o' : Outcome) : Prop where
  result : o.ending.result = o'.ending.result
  parsed : o.state.parsed.Perm o'.state.parsed
  positionals : o.state.positionals = o'.state.positionals

section Same
variable {T : Table} {s : State} {o o' : Outcome} {lf v w : Chars}

theorem Same.refl (o : Outcome) : Same o o := ⟨rfl, List.Perm.refl _, rfl⟩

theorem emplace_of_found (h : s.found T lf = true) : s.emplace T lf v = s := by
  rw [State.emplace, if_pos h]

theorem emplace_of_not_found (h : s.found T lf = false) :
    s.emplace T lf v = { s with parsed := s.parsed ++ [(lf, v)] } := by
  rw [State.emplace, h, if_neg Bool.false_ne_true]

theorem not_mem_parsed (h : s.found T lf = false) : (lf, w) ∉ s.parsed :=
  fun hm => not_mem_of_not_found h (List.mem_map_of_mem hm)

theorem mem_of_extends (hs : s.found T lf = false) (h : Extends (s.emplace T lf w) o.state) :
    (lf, w) ∈ o.state.parsed := by
  obtain ⟨ps, hps, -⟩ := h
  rw [hps, emplace_of_not_found hs]
  simp

end Same

def assign (flag v : Chars) : Chars := flag ++ '=' :: v

def Arg.long (a : Arg) : Chars := '-' :: '-' :: a.lf

def Arg.short (a : Arg) : Chars := ['-', a.sf]

theorem no_eq_long {a : Arg} (h : '=' ∉ a.lf) : '=' ∉ a.long := by
  simp [Arg.long, h]

/-- The state with positionals in front of its own. -/
def State.behind (s : State) (ps : List Chars) : State :=
  { s with positionals := ps ++ s.positionals }

def Outcome.behind (o : Outcome) (ps : List Chars) : Outcome :=
  { o with state := o.state.behind ps }

def Step.behind (ps : List Chars) : Step → Step
  | .go s => .go (s.behind ps)
  | .value lf s => .value lf (s.behind ps)
  | .stop o => .stop (o.behind ps)

section Behind
variable {T : Table} {console : Console} {cmd : Command} (s : State) (ps : List Chars)

end Behind

section Agree
variable (T : Table) (cmd : Command)

variable {T cmd} {console : Console} {s u : State} {t t' lf v w : Chars} {post : List Chars}
  {a : Arg} {ok odd : State → Prop}

theorem parse_go (h : token T cmd s t = .go u) (argv : List Chars) :
    parse T console cmd s (t :: argv) = parse T console cmd u argv := by
  rw [parse, h]

theorem parse_stop {o : Outcome} (h : token T cmd s t = .stop o) (argv : List Chars) :
    parse T console cmd s (t :: argv) = o := by
  rw [parse, h]

theorem parse_value (h : token T cmd s t = .value lf u) (v : Chars) (argv : List Chars) :
    parse T console cmd s (t :: v :: argv) = parse T console cmd (u.emplace T lf v) argv := by
  rw [parse, h]

theorem cArg_cons (c : Char) (t : Chars) : cArg (c :: t) = if c = '=' then [] else c :: cArg t := by
  by_cases hc : c = '=' <;> simp [cArg, hc]

theorem cArg_eq (h : '=' ∉ t) : cArg t = t := by
  induction t with
  | nil => rfl
  | cons c t ih =>
    obtain ⟨hc, ht⟩ := not_or.mp (List.mem_cons.not.mp h)
    rw [cArg_cons, if_neg fun heq => hc heq.symm, ih ht]

theorem cArg_assign (h : '=' ∉ t) : cArg (assign t v) = t := by
  induction t with
  | nil => rfl
  | cons c t ih =>
    obtain ⟨hc, ht⟩ := not_or.mp (List.mem_cons.not.mp h)
    have hrec := ih ht
    rw [assign] at hrec ⊢
    rw [List.cons_append, cArg_cons, if_neg fun heq => hc heq.symm, hrec]

theorem cVal_eq (h : '=' ∉ t) : cVal t = none := by
  rw [cVal, if_neg h]

theorem cVal_assign : cVal (assign t v) = some [] := by
  have hmem : '=' ∈ assign t v := List.mem_append_right _ List.mem_cons_self
  rw [cVal, if_pos hmem]

/-- The two forms differ in whether something was cut. -/
theorem token_flag (hdash : t.head? = some '-') (h : '=' ∉ t) :
    token T cmd s (assign t v) = flag T cmd s t (some []) ∧
      token T cmd s t = flag T cmd s t none := by
  have hflag : ¬ t.head? ≠ some '-' := fun hne => hne hdash
  constructor
  · rw [token, cArg_assign h, cVal_assign, if_neg hflag]
  · rw [token, cArg_eq h, cVal_eq h, if_neg hflag]

theorem flag_invalid (cVal : Option Chars) (h : isValid t = 0) :
    flag T cmd s t cVal =
      .stop (s.throw ("error: Unsupported argument syntax '".toList ++ t ++ "'".toList)) := by
  rw [flag, h]
  rfl

theorem flag_name (name : Chars) (cVal : Option Chars) (h : isValid ('-' :: '-' :: name) ≠ 0) :
    flag T cmd s ('-' :: '-' :: name) cVal = longFlag T cmd s name cVal := by
  have htwo : isValid ('-' :: '-' :: name) = 2 := by
    cases name with
    | nil => exact absurd rfl h
    | cons d f =>
      simp only [isValid] at h ⊢
      simp_all
  rw [flag, htwo]
  rfl

theorem flag_long (cVal : Option Chars) (h : isValid a.long ≠ 0) :
    flag T cmd s a.long cVal = longFlag T cmd s a.lf cVal := flag_name a.lf cVal h

/-- A test that `x` passes and nothing before it finds `x`. -/
theorem find_of_pairwise {α : Type} {r : α → α → Prop} {l : List α} (hl : l.Pairwise r) {x : α}
    (hx : x ∈ l) {test : α → Bool} (htest : test x = true)
    (hothers : ∀ y ∈ l, r y x → test y = false) : l.find? test = some x := by
  obtain ⟨before, behind, rfl⟩ := List.append_of_mem hx
  rw [List.pairwise_append] at hl
  rw [List.find?_eq_some_iff_append]
  refine ⟨htest, before, behind, rfl, fun y hy => ?_⟩
  have hfirst : r y x := hl.2.2 y hy x List.mem_cons_self
  rw [hothers y (List.mem_append_left _ hy) hfirst]
  rfl

theorem check_long (ha : a ∈ cmd.args) : cmd.check a.lf NOSF = some a := by
  apply find_of_pairwise cmd.distinct ha
  · simp [Arg.check]
  · intro b _ hb
    rw [Arg.check, Bool.or_eq_false_iff] at hb
    rw [Arg.check, hb.2]
    rfl

theorem flag_short (cVal : Option Chars) (h : isValid a.short ≠ 0) :
    flag T cmd s a.short cVal = shortFlags T cmd cVal s [a.sf] := by
  have hone : isValid a.short = 1 := by
    unfold Arg.short at h ⊢
    simp only [isValid] at h ⊢
    split_ifs at h ⊢ <;> simp_all
  rw [flag, hone]
  rfl

end Agree

/-- A table that finds the keys it has. -/
def exactTable : Table where
  finds ks k := k ∈ ks
  mem h := decide_eq_true h
  sound {ks k} h := ⟨k, of_decide_eq_true h, by simp [std_string_case_eq]⟩

def silent : Console := ⟨fun _ => none, fun _ => []⟩

def nothing : State := ⟨[], []⟩

end Suil.Utils.Args
