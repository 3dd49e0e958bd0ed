import Suil.Utils.Spelling

/-! What the tokens of a vector ask for, apart from what `mParsed` has by then. `parse` does one
thing after the other. -/
namespace Suil.Utils.Args
open CText (Chars)

/-- A positional token, the check that an argument was not passed already, or its value. -/
inductive Event
  | positional (t : Chars)
  | fresh (a : Arg)
  | give (a : Arg) (v : Chars)

/-- How the loop over the tokens ends by itself. -/
inductive Halt
  | finished
  | help
  | failed (message : Chars)

/-- What follows a token: the next one, a value of `a`, or the end. -/
inductive Next
  | go
  | value (a : Arg)
  | help
  | failed (message : Chars)

def refusal (name : Chars) (text : String) : Chars :=
  "error: command argument '".toList ++ name ++ text.toList

section Script
variable (cmd : Command)

def longScript (name : Chars) (cVal : Option Chars) : List Event × Next :=
  match cmd.check name NOSF with
  | none => ([], .failed (refusal ("--".toList ++ name) "' is not recognized"))
  | some a =>
    if a.prompt ≠ [] then ([], .failed (refusal a.lf "' is supported through prompt"))
    else if a.sf = 'h' then ([], .help)
    else if a.option then
      match cVal with
      | none => ([.fresh a, .give a "1".toList], .go)
      | some _ => ([.fresh a], .failed (refusal a.lf "' does not take a value"))
    else
      match cVal with
      | none => ([.fresh a], .value a)
      | some val => ([.fresh a, .give a val], .go)

def shortScript (cVal : Option Chars) : Chars → List Event × Next
  | [] => ([], .go)
  | c :: flags =>
    match cmd.check [] c with
    | none => ([], .failed (refusal ['-', c] "' is not recognized"))
    | some a =>
      if a.sf = 'h' then ([], .help)
      else if a.option then
        match cVal with
        | none => (.give a "1".toList :: (shortScript cVal flags).1, (shortScript cVal flags).2)
        | some _ => ([], .failed (refusal a.lf "' assigned a value but it's an option"))
      else if flags ≠ [] then ([], .failed (refusal a.lf "' expects a value"))
      else
        match cVal with
        | none => ([], .value a)
        | some val => ([.give a val], .go)

def flagScript (cArg : Chars) (cVal : Option Chars) : List Event × Next :=
  match isValid cArg with
  | 0 => ([], .failed ("error: Unsupported argument syntax '".toList ++ cArg ++ "'".toList))
  | 2 => longScript cmd (cArg.drop 2) cVal
  | _ => shortScript cmd cVal (cArg.drop 1)

def tokenScript (t : Chars) : List Event × Next :=
  if (cArg t).head? ≠ some '-' then ([.positional (cArg t)], .go)
  else flagScript cmd (cArg t) (cVal t)

/-- What the vector asks for. -/
def script : List Chars → List Event × Halt
  | [] => ([], .finished)
  | t :: argv =>
    match tokenScript cmd t with
    | (es, .go) => (es ++ (script argv).1, (script argv).2)
    | (es, .help) => (es, .help)
    | (es, .failed message) => (es, .failed message)
    | (es, .value a) =>
      match argv with
      | [] => (es, .failed (refusal a.lf "' expects a value"))
      | v :: argv => (es ++ .give a v :: (script argv).1, (script argv).2)

end Script

section Play
variable (T : Table) (console : Console) (cmd : Command)

/-- The state after the events, or the outcome of a check. -/
def perform (s : State) : List Event → Except Outcome State
  | [] => .ok s
  | .positional t :: es => perform { s with positionals := s.positionals ++ [t] } es
  | .fresh a :: es =>
    if s.found T a.lf then .error (s.refuse a.lf "' was already passed") else perform s es
  | .give a v :: es => perform (s.emplace T a.lf v) es

def conclude (s : State) : Halt → Outcome
  | .finished => checkRequired T console s [] cmd.args
  | .help => ⟨.returned true, s⟩
  | .failed message => s.throw message

/-- `parse`, told what the tokens ask for. -/
def play (s : State) (r : List Event × Halt) : Outcome :=
  match perform T s r.1 with
  | .error o => o
  | .ok s => conclude T console cmd s r.2

/-- What a token leads to. -/
def Next.step (s : State) : Next → Step
  | .go => .go s
  | .value a => .value a.lf s
  | .help => .stop ⟨.returned true, s⟩
  | .failed message => .stop (s.throw message)

/-- What the tokens behind do with it. -/
def Step.parse (argv : List Chars) : Step → Outcome
  | .go s => Args.parse T console cmd s argv
  | .stop o => o
  | .value lf s =>
    match argv with
    | [] => s.refuse lf "' expects a value"
    | v :: argv => Args.parse T console cmd (s.emplace T lf v) argv

def take (s : State) (r : List Event × Next) : Step :=
  match perform T s r.1 with
  | .error o => .stop o
  | .ok s => r.2.step s

variable {T console cmd} {s u : State} {es fs : List Event}

/-- The check is the first thing, and ends the parse if it fails. -/
theorem take_fresh (a : Arg) (n : Next) : take T s (.fresh a :: es, n) =
    if s.found T a.lf then .stop (s.refuse a.lf "' was already passed") else take T s (es, n) := by
  unfold take
  rw [perform]
  split_ifs
  · rfl
  · rfl

theorem longFlag_eq (name : Chars) (cVal : Option Chars) :
    longFlag T cmd s name cVal = take T s (longScript cmd name cVal) := by
  unfold longFlag longScript
  cases cmd.check name NOSF with
  | none => rfl
  | some a =>
    dsimp only
    by_cases hprompt : a.prompt ≠ []
    · rw [if_pos hprompt, if_pos hprompt]
      rfl
    · rw [if_neg hprompt, if_neg hprompt]
      by_cases hh : a.sf = 'h'
      · rw [if_pos hh, if_pos hh]
        rfl
      · rw [if_neg hh, if_neg hh]
        cases a.option with
        | true =>
          rw [if_pos rfl, if_pos rfl]
          cases cVal with
          | none =>
            dsimp only
            rw [take_fresh]
            rfl
          | some val =>
            dsimp only
            rw [take_fresh]
            rfl
        | false =>
          rw [if_neg Bool.false_ne_true, if_neg Bool.false_ne_true]
          cases cVal with
          | none =>
            dsimp only
            rw [take_fresh]
            rfl
          | some val =>
            dsimp only
            rw [take_fresh]
            rfl

theorem shortFlags_eq (cVal : Option Chars) (flags : Chars) :
    shortFlags T cmd cVal s flags = take T s (shortScript cmd cVal flags) := by
  induction flags generalizing s with
  | nil => rfl
  | cons c flags ih =>
    unfold shortFlags shortScript
    cases cmd.check [] c with
    | none => rfl
    | some a =>
      dsimp only
      by_cases hh : a.sf = 'h'
      · rw [if_pos hh, if_pos hh]
        rfl
      · rw [if_neg hh, if_neg hh]
        cases a.option with
        | true =>
          cases cVal with
          | none => exact ih
          | some val => rfl
        | false =>
          rw [if_neg Bool.false_ne_true, if_neg Bool.false_ne_true]
          by_cases hflags : flags ≠ []
          · rw [if_pos hflags, if_pos hflags]
            rfl
          · rw [if_neg hflags, if_neg hflags]
            cases cVal <;> rfl

theorem token_eq (t : Chars) : token T cmd s t = take T s (tokenScript cmd t) := by
  unfold token tokenScript flag flagScript
  by_cases hhead : (cArg t).head? ≠ some '-'
  · rw [if_pos hhead, if_pos hhead]
    rfl
  · rw [if_neg hhead, if_neg hhead]
    match isValid (cArg t) with
    | 0 => rfl
    | 1 => exact shortFlags_eq _ _
    | 2 => exact longFlag_eq _ _
    | _ + 3 => exact shortFlags_eq _ _

theorem perform_append (es fs : List Event) :
    perform T s (es ++ fs) = (perform T s es).bind fun u => perform T u fs := by
  induction es generalizing s with
  | nil => rfl
  | cons e es ih =>
    cases e with
    | positional t => exact ih
    | fresh a =>
      rw [List.cons_append, perform, perform]
      split_ifs
      · rfl
      · exact ih
    | give a v => exact ih

theorem parse_cons (t : Chars) (argv : List Chars) :
    parse T console cmd s (t :: argv) = (token T cmd s t).parse T console cmd argv := by
  rw [parse]
  cases token T cmd s t with
  | go s => rfl
  | stop o => rfl
  | value lf s =>
    cases argv with
    | nil => rfl
    | cons v argv => rfl

/-- `parse` does what the tokens ask for. -/
theorem parse_eq_play (s : State) (argv : List Chars) :
    parse T console cmd s argv = play T console cmd s (script cmd argv) := by
  induction argv using script.induct cmd generalizing s with
  | case1 => rfl
  | case2 t argv es h ih =>
    rw [parse_cons, token_eq, script, h, take, play, perform_append]
    cases perform T s es with
    | error o => rfl
    | ok u => exact ih u
  | case3 t argv es h =>
    rw [parse_cons, token_eq, script, h, take, play]
    cases perform T s es with
    | error o => rfl
    | ok u => rfl
  | case4 t argv es message h =>
    rw [parse_cons, token_eq, script, h, take, play]
    cases perform T s es with
    | error o => rfl
    | ok u => rfl
  | case5 t es a h =>
    rw [parse_cons, token_eq, script, h, take, play]
    cases perform T s es with
    | error o => rfl
    | ok u => rfl
  | case6 t es a h v argv ih =>
    rw [parse_cons, token_eq, script, h, take, play, perform_append]
    cases perform T s es with
    | error o => rfl
    | ok u => exact ih (u.emplace T a.lf v)

end Play

/-- The argument takes a value. -/
def takes (a : Option Arg) : Bool := a.any fun a => !a.option

/-- The argument that the flag `f` names last takes a value. -/
def consumesFlag (cmd : Command) (f : Chars) : Bool :=
  match isValid f with
  | 0 => false
  | 2 => takes (cmd.check (f.drop 2) NOSF)
  | _ => takes (f.getLast?.bind fun c => cmd.check [] c)

/-- The next token is the value of the argument that the flag `t` names last. -/
def consumes (cmd : Command) (t : Chars) : Bool := '=' ∉ t && consumesFlag cmd t

/-- The tokens that neither begin with a dash nor are the value of a flag before them. -/
def free (cmd : Command) : List Chars → List Chars
  | [] => []
  | t :: argv =>
    if t.head? ≠ some '-' then t :: free cmd argv
    else if consumes cmd t then
      match argv with
      | [] => []
      | _ :: argv => free cmd argv
    else free cmd argv

def Event.positional? : Event → Option Chars
  | .positional t => some t
  | .fresh _ => none
  | .give _ _ => none

def positionalsOf (es : List Event) : List Chars := es.filterMap Event.positional?

section Positionals
variable {T : Table} {console : Console} {cmd : Command} {s u : State} {es : List Event} {t : Chars}
  {cVal : Option Chars} {a : Arg} {o : Outcome}

theorem longScript_next (cmd : Command) (cVal : Option Chars) (name : Chars) :
    ((longScript cmd name cVal).2 = .go → cVal = none → takes (cmd.check name NOSF) = false) ∧
      (∀ a, (longScript cmd name cVal).2 = .value a →
        cVal = none ∧ takes (cmd.check name NOSF) = true) ∧
      positionalsOf (longScript cmd name cVal).1 = [] := by
  unfold longScript
  cases cmd.check name NOSF with
  | none => simp [positionalsOf]
  | some b =>
    dsimp only
    split_ifs with hprompt hh hoption
    · simp [positionalsOf]
    · simp [positionalsOf]
    · cases cVal <;> simp [positionalsOf, Event.positional?, takes, hoption]
    · cases cVal <;> simp [positionalsOf, Event.positional?, takes, hoption]

theorem shortScript_next (cmd : Command) (cVal : Option Chars) (flags : Chars)
    (hflags : flags ≠ []) :
    ((shortScript cmd cVal flags).2 = .go → cVal = none →
        takes (flags.getLast?.bind fun c => cmd.check [] c) = false) ∧
      (∀ a, (shortScript cmd cVal flags).2 = .value a →
        cVal = none ∧ takes (flags.getLast?.bind fun c => cmd.check [] c) = true) ∧
      positionalsOf (shortScript cmd cVal flags).1 = [] := by
  induction flags with
  | nil => exact absurd rfl hflags
  | cons c flags ih =>
    unfold shortScript
    cases hcheck : cmd.check [] c with
    | none => simp [positionalsOf]
    | some b =>
      dsimp only
      split_ifs with hh hoption hrest
      · simp [positionalsOf]
      · cases cVal with
        | some val => simp [positionalsOf]
        | none =>
          cases flags with
          | nil => simp [shortScript, positionalsOf, Event.positional?, takes, hcheck, hoption]
          | cons d flags =>
            obtain ⟨hgo, hvalue, hnone⟩ := ih (List.cons_ne_nil d flags)
            rw [List.getLast?_cons_cons]
            exact ⟨hgo, hvalue, hnone⟩
      · simp [positionalsOf]
      · obtain rfl : flags = [] := not_not.mp hrest
        cases cVal <;> simp [positionalsOf, Event.positional?, takes, hcheck, hoption]

theorem head_cArg (t : Chars) : (cArg t).head? = some '-' ↔ t.head? = some '-' := by
  cases t with
  | nil => rfl
  | cons c t =>
    rw [cArg_cons]
    split_ifs with hc
    · rw [hc]
      simp
    · rfl

/-- What is a flag has something behind its dash. -/
theorem drop_flag (h : isValid t ≠ 0) : t.drop 1 ≠ [] ∧ t.getLast? = (t.drop 1).getLast? := by
  match t with
  | [] => exact absurd rfl h
  | [c] => simp [isValid] at h
  | c :: d :: t => exact ⟨List.cons_ne_nil _ _, List.getLast?_cons_cons⟩

theorem flagScript_next (cmd : Command) (cVal : Option Chars) (f : Chars) :
    ((flagScript cmd f cVal).2 = .go → cVal = none → consumesFlag cmd f = false) ∧
      (∀ a, (flagScript cmd f cVal).2 = .value a → cVal = none ∧ consumesFlag cmd f = true) ∧
      positionalsOf (flagScript cmd f cVal).1 = [] := by
  unfold flagScript consumesFlag
  cases hvalid : isValid f with
  | zero => simp [positionalsOf]
  | succ n =>
    have hflag : isValid f ≠ 0 := by omega
    obtain ⟨hne, hlast⟩ := drop_flag hflag
    have hshort := shortScript_next cmd cVal (f.drop 1) hne
    rw [← hlast] at hshort
    match n with
    | 0 => exact hshort
    | 1 => exact longScript_next cmd cVal _
    | _ + 2 => exact hshort

theorem tokenScript_positional (hdash : t.head? ≠ some '-') :
    tokenScript cmd t = ([.positional (cArg t)], .go) := by
  rw [tokenScript, if_pos]
  exact fun h => hdash ((head_cArg t).mp h)

/-- A flag is no positional token, and takes the next token as a value where it says so. -/
theorem tokenScript_flag (cmd : Command) (hdash : t.head? = some '-') :
    ((tokenScript cmd t).2 = .go → consumes cmd t = false) ∧
      (∀ a, (tokenScript cmd t).2 = .value a → consumes cmd t = true) ∧
      positionalsOf (tokenScript cmd t).1 = [] := by
  have hflag : tokenScript cmd t = flagScript cmd (cArg t) (cVal t) := by
    rw [tokenScript, if_neg]
    exact fun hne => hne ((head_cArg t).mpr hdash)
  obtain ⟨hgo, hvalue, hnone⟩ := flagScript_next cmd (cVal t) (cArg t)
  rw [hflag]
  unfold consumes
  by_cases hcut : '=' ∈ t
  · have hsome : cVal t = some [] := if_pos hcut
    refine ⟨fun _ => by simp [hcut], fun a h => ?_, hnone⟩
    have hval := (hvalue a h).1
    rw [hsome] at hval
    cases hval
  · rw [cArg_eq hcut, cVal_eq hcut] at hgo hvalue hnone ⊢
    have htrue : decide ('=' ∉ t) = true := decide_eq_true hcut
    rw [htrue, Bool.true_and]
    exact ⟨fun h => hgo h rfl, fun a h => (hvalue a h).2, hnone⟩

theorem free_positional (hdash : t.head? ≠ some '-') (argv : List Chars) :
    free cmd (t :: argv) = t :: free cmd argv := by
  cases argv with
  | nil => rw [free.eq_def]; exact if_pos hdash
  | cons v argv => rw [free.eq_def]; exact if_pos hdash

theorem free_flag (hdash : t.head? = some '-') (h : consumes cmd t = false) (argv : List Chars) :
    free cmd (t :: argv) = free cmd argv := by
  have hflag : ¬ t.head? ≠ some '-' := not_not.mpr hdash
  have hnot : ¬ consumes cmd t = true := by
    rw [h]
    exact Bool.false_ne_true
  cases argv with
  | nil => rw [free.eq_def]; exact (if_neg hflag).trans (if_neg hnot)
  | cons v argv => rw [free.eq_def]; exact (if_neg hflag).trans (if_neg hnot)

theorem free_value (hdash : t.head? = some '-') (h : consumes cmd t = true) (v : Chars)
    (argv : List Chars) : free cmd (t :: v :: argv) = free cmd argv := by
  have hflag : ¬ t.head? ≠ some '-' := not_not.mpr hdash
  rw [free.eq_def]
  exact (if_neg hflag).trans (if_pos h)

theorem positionalsOf_append (es fs : List Event) :
    positionalsOf (es ++ fs) = positionalsOf es ++ positionalsOf fs := List.filterMap_append

/-- What a vector that is read to its end gives as positional tokens. -/
theorem script_positionals (argv : List Chars) (h : (script cmd argv).2 = .finished) :
    positionalsOf (script cmd argv).1 = (free cmd argv).map cArg := by
  induction argv using script.induct cmd with
  | case1 => rfl
  | case2 t argv es ht ih =>
    rw [script, ht] at h ⊢
    have hrest := ih h
    rw [positionalsOf_append, hrest]
    by_cases hdash : t.head? = some '-'
    · have hflag := tokenScript_flag cmd hdash
      rw [ht] at hflag
      obtain ⟨hgo, -, hnone⟩ := hflag
      rw [hnone, free_flag hdash (hgo rfl)]
      rfl
    · rw [tokenScript_positional hdash] at ht
      obtain ⟨rfl, -⟩ := Prod.mk.inj ht
      rw [free_positional hdash]
      rfl
  | case3 t argv es ht =>
    rw [script, ht] at h
    cases h
  | case4 t argv es message ht =>
    rw [script, ht] at h
    cases h
  | case5 t es a ht =>
    rw [script, ht] at h
    cases h
  | case6 t es a ht v argv ih =>
    rw [script, ht] at h ⊢
    have hrest := ih h
    have hdash : t.head? = some '-' := by
      by_contra hdash
      rw [tokenScript_positional hdash] at ht
      cases ht
    have hflag := tokenScript_flag cmd hdash
    rw [ht] at hflag
    obtain ⟨-, hvalue, hnone⟩ := hflag
    have hgive : positionalsOf (.give a v :: (script cmd argv).1) =
        positionalsOf (script cmd argv).1 := rfl
    rw [positionalsOf_append, hnone, hgive, hrest, free_value hdash (hvalue a rfl)]
    rfl

theorem emplace_positionals (k v : Chars) : (s.emplace T k v).positionals = s.positionals := by
  unfold State.emplace
  split_ifs
  · rfl
  · rfl

/-- The events that are performed without an error, one by one. -/
inductive Performs (T : Table) : State → List Event → State → Prop
  | nil {s : State} : Performs T s [] s
  | positional {s u : State} {es : List Event} (t : Chars)
      (h : Performs T { s with positionals := s.positionals ++ [t] } es u) :
      Performs T s (.positional t :: es) u
  | fresh {s u : State} {es : List Event} (a : Arg) (h : Performs T s es u) :
      Performs T s (.fresh a :: es) u
  | give {s u : State} {es : List Event} (a : Arg) (v : Chars)
      (h : Performs T (s.emplace T a.lf v) es u) : Performs T s (.give a v :: es) u

theorem performs (h : perform T s es = .ok u) : Performs T s es u := by
  induction es generalizing s with
  | nil =>
    obtain rfl := Except.ok.inj h
    exact .nil
  | cons e es ih =>
    cases e with
    | positional t => exact .positional t (ih h)
    | fresh a =>
      rw [perform] at h
      split_ifs at h
      exact .fresh a (ih h)
    | give a v => exact .give a v (ih h)

theorem perform_positionals (h : perform T s es = .ok u) :
    u.positionals = s.positionals ++ positionalsOf es := by
  replace h := performs h
  induction h with
  | nil => exact (List.append_nil _).symm
  | positional t _ ih =>
    rw [ih, List.append_assoc]
    rfl
  | fresh a _ ih => exact ih
  | give a v _ ih =>
    rw [ih, emplace_positionals]
    rfl

theorem checkRequired_positionals (missing : List Chars) (args : List Arg) :
    (checkRequired T console s missing args).state.positionals = s.positionals := by
  apply checkRequired_preserves (P := fun u => u.positionals = s.positionals)
  · exact fun a _ u v hu => (emplace_positionals a.lf v).trans hu
  · rfl

theorem perform_error {o : Outcome} (h : perform T s es = .error o) : o.ending.result = none := by
  induction es generalizing s with
  | nil => cases h
  | cons e es ih =>
    cases e with
    | positional t => exact ih h
    | fresh a =>
      rw [perform] at h
      split_ifs at h
      · obtain rfl := Except.error.inj h
        rfl
      · exact ih h
    | give a v => exact ih h

/-- A parse that accepts has performed all events, and then looked for what is missing. -/
theorem parse_accepted {argv : List Chars}
    (h : (parse T console cmd s argv).ending = .returned false) : ∃ u,
      perform T s (script cmd argv).1 = .ok u ∧ (script cmd argv).2 = .finished ∧
        parse T console cmd s argv = checkRequired T console u [] cmd.args := by
  rw [parse_eq_play, play] at h
  rw [parse_eq_play, play]
  cases hperform : perform T s (script cmd argv).1 with
  | error o =>
    have hresult := perform_error hperform
    rw [hperform] at h
    dsimp only at h
    rw [h] at hresult
    cases hresult
  | ok u =>
    rw [hperform] at h
    dsimp only at h
    cases hhalt : (script cmd argv).2 with
    | finished => exact ⟨u, rfl, rfl, rfl⟩
    | help =>
      rw [hhalt] at h
      cases h
    | failed message =>
      rw [hhalt] at h
      cases h

/-- The positional tokens, each up to its first `'='`. -/
theorem parse_positionals {argv : List Chars}
    (h : (parse T console cmd s argv).ending = .returned false) :
    (parse T console cmd s argv).state.positionals =
      s.positionals ++ (free cmd argv).map cArg := by
  obtain ⟨u, hu, hfinished, hparse⟩ := parse_accepted h
  rw [hparse, checkRequired_positionals, perform_positionals hu, script_positionals argv hfinished]

theorem cArg_eq_iff : cArg t = t ↔ '=' ∉ t := by
  constructor
  · intro h
    rw [← h]
    exact no_eq_cArg t
  · exact cArg_eq

theorem map_cArg_iff (l : List Chars) : l.map cArg = l ↔ ∀ t ∈ l, '=' ∉ t := by
  have hid : l.map cArg = l.map id ↔ ∀ t ∈ l, cArg t = id t := List.map_inj_left
  rw [List.map_id] at hid
  rw [hid]
  constructor
  · exact fun hall t ht => cArg_eq_iff.mp (hall t ht)
  · exact fun hall t ht => cArg_eq_iff.mpr (hall t ht)

end Positionals

/-- The positional tokens are kept as they are exactly when none of them has an `'='`. -/
theorem positionals_iff (T : Table) (console : Console) (cmd : Command) (argv : List Chars)
    (h : (parse T console cmd nothing argv).ending = .returned false) :
    (parse T console cmd nothing argv).state.positionals = free cmd argv ↔
      ∀ t ∈ free cmd argv, '=' ∉ t := by
  have hcut : (parse T console cmd nothing argv).state.positionals =
      (free cmd argv).map cArg := parse_positionals h
  rw [hcut, map_cArg_iff]

/-- A flag and a token that is none. -/
theorem positionals_file : (parse exactTable silent verboseCommand nothing
    [verboseArg.long, "file".toList]).state.positionals = ["file".toList] :=
  (positionals_iff exactTable silent verboseCommand [verboseArg.long, "file".toList] rfl).mpr
    (by decide)

/-- `a=b` is kept as `a`. -/
theorem not_positionals_assign : ¬ ∀ T console cmd argv,
    (parse T console cmd nothing argv).ending = .returned false →
      (parse T console cmd nothing argv).state.positionals = free cmd argv := by
  intro h
  have heq := h exactTable silent verboseCommand ["a=b".toList] rfl
  revert heq
  decide

end Suil.Utils.Args
