import Suil.Utils.Parser
import Suil.Utils.Spelling

/-! The names of the arguments of a command, whichever way it got them. -/
namespace Suil.Utils.Args
open CText (Chars)

theorem distinct_append {cmd : Command} {a : Arg} (h : cmd.check a.lf a.sf = none) :
    (cmd.args ++ [a]).Pairwise fun a b => a.check b.sf b.lf = false := by
  rw [List.pairwise_append]
  refine ⟨cmd.distinct, List.pairwise_singleton _ _, fun b hb c hc => ?_⟩
  rw [List.mem_singleton.mp hc]
  exact check_eq_none.mp h b hb

/-- `Command::operator()(Arg&&)`. -/
def Command.apply (cmd : Command) (a : Arg) : Except Chars Command :=
  if a.lf = [] then .error "Command line argument missing long format (--arg) option".toList
  else
    match h : cmd.check a.lf a.sf with
    | some b => .error ("Command line '".toList ++ b.lf ++ '|' :: a.sf :: "' duplicated".toList)
    | none => .ok ⟨cmd.args ++ [a], distinct_append h⟩

theorem distinct_nil : ([] : List Arg).Pairwise fun a b => a.check b.sf b.lf = false :=
  List.Pairwise.nil

def Command.bare : Command := ⟨[], distinct_nil⟩

/-- The constructor of `Command`. -/
def construct (name : Chars) (help : Bool) : Except Chars Registered :=
  if help then (Command.bare.apply helpArg).map fun cmd => ⟨name, false, cmd⟩
  else .ok ⟨name, false, Command.bare⟩

/-- `d`, or the command `cmd` in its place where it has the name. -/
def Registered.replaced (d : Registered) (name : Chars) (cmd : Command) : Registered :=
  if d.name = name then { d with command := cmd } else d

theorem Registered.replaced_name (d : Registered) (name : Chars) (cmd : Command) :
    (d.replaced name cmd).name = d.name := by
  unfold Registered.replaced
  split_ifs
  · rfl
  · rfl

/-- What a handler does that adds an argument to its command. -/
def Parser.apply (p : Parser) (name : Chars) (a : Arg) : Except Chars Parser :=
  match p.find name with
  | none => .ok p
  | some c => (c.command.apply a).map fun cmd =>
    { p with
      commands := p.commands.map fun d => d.replaced name cmd
      named := by
        rw [List.pairwise_map]
        simp only [Registered.replaced_name]
        exact p.named }

/-- A parser, and the commands that are built to be added to it. A command that was added can
still be copied. -/
structure Program where
  drafts : List Registered
  parser : Parser

inductive Registration
  | construct (name : Chars) (help : Bool)
  | apply (i : ℕ) (a : Arg)
  | handler (name : Chars) (a : Arg)
  | global (a : Arg)
  | command (i : ℕ)

namespace Program

def step (s : Program) : Registration → Except Chars Program
  | .construct name help =>
    (construct name help).map fun c => { s with drafts := s.drafts ++ [c] }
  | .apply i a =>
    match s.drafts[i]? with
    | none => .ok s
    | some c => (c.command.apply a).map fun cmd =>
      { s with drafts := s.drafts.set i { c with command := cmd } }
  | .handler name a => (s.parser.apply name a).map fun p => { s with parser := p }
  | .global a => (s.parser.addArg a).map fun p => { s with parser := p }
  | .command i =>
    match s.drafts[i]? with
    | none => .ok s
    | some c => (s.parser.addCommand c).map fun p => { s with parser := p }

def run (s : Program) : List Registration → Except Chars Program
  | [] => .ok s
  | r :: rs =>
    match s.step r with
    | .error message => .error message
    | .ok s => s.run rs

def commands (s : Program) : List Command :=
  (s.drafts ++ s.parser.commands).map Registered.command

end Program

/-- What is there after the registrations, if none throws. -/
def history (rs : List Registration) : Except Chars Program :=
  match register [] with
  | .error message => .error message
  | .ok p => (⟨[], p⟩ : Program).run rs

/-- No two arguments have one name or one letter, and a long name finds its argument. -/
structure Apart (cmd : Command) : Prop where
  longs : cmd.args.Pairwise fun a b => a.lf ≠ b.lf
  letters : cmd.args.Pairwise fun a b => a.sf ≠ NOSF → a.sf ≠ b.sf
  long : ∀ l a, cmd.check l NOSF = some a ↔ a ∈ cmd.args ∧ a.lf = l

/-- A flag names one argument. -/
structure OneEach (cmd : Command) : Prop extends Apart cmd where
  letter : ∀ c a, c ≠ NOSF → (cmd.check [] c = some a ↔ a ∈ cmd.args ∧ a.sf = c)

/-- Where an argument has no long name, every letter is its own or that of one before it. -/
def Covered (cmd : Command) : Prop := ∀ front a back, cmd.args = front ++ a :: back → a.lf = [] →
  ∀ c, c ≠ NOSF → ∃ b ∈ front ++ [a], b.sf = c

section Lookup
variable {cmd : Command} {a b : Arg} {c : Char}

theorem check_eq_false : a.check b.sf b.lf = false ↔ (b.sf ≠ NOSF → b.sf ≠ a.sf) ∧ b.lf ≠ a.lf := by
  rw [Arg.check, Bool.or_eq_false_iff]
  simp

theorem apart (cmd : Command) : Apart cmd where
  longs := cmd.distinct.imp fun h => (check_eq_false.mp h).2.symm
  letters := by
    apply cmd.distinct.imp
    intro a b h hsf heq
    exact (check_eq_false.mp h).1 (heq ▸ hsf) heq.symm
  long l a := by
    constructor
    · exact check_long_eq
    · intro h
      obtain ⟨ha, rfl⟩ := h
      exact check_long ha

/-- What a letter is tried on: an argument without a long name answers to every one. -/
theorem letter_test (hc : c ≠ NOSF) : a.check c [] = true ↔ a.sf = c ∨ a.lf = [] := by
  have hempty : ([] == a.lf) = true ↔ a.lf = [] := by
    rw [beq_iff_eq]
    exact eq_comm
  rw [Arg.check, Bool.or_eq_true, Bool.and_eq_true, hempty, decide_eq_true_iff]
  constructor
  · rintro (⟨-, hsf⟩ | hlf)
    · exact .inl (eq_of_beq hsf).symm
    · exact .inr hlf
  · rintro (hsf | hlf)
    · exact .inl ⟨hc, beq_iff_eq.mpr hsf.symm⟩
    · exact .inr hlf

theorem sf_ne_of_before {front back : List Arg} (hargs : cmd.args = front ++ a :: back)
    (hsf : a.sf ≠ NOSF) (hb : b ∈ front) : b.sf ≠ a.sf := by
  have hpairs := (apart cmd).letters
  rw [hargs, List.pairwise_append] at hpairs
  intro heq
  exact hpairs.2.2 b hb a List.mem_cons_self (heq ▸ hsf) heq

theorem check_split (h : cmd.check [] c = some a) : a.check c [] = true ∧
    ∃ front back, cmd.args = front ++ a :: back ∧ ∀ b ∈ front, b.check c [] = false := by
  obtain ⟨htest, front, back, hargs, hfront⟩ := List.find?_eq_some_iff_append.mp h
  refine ⟨htest, front, back, hargs, fun b hb => ?_⟩
  simpa using hfront b hb

/-- What a letter finds up to an argument that is tried. -/
theorem exists_of_test {front back : List Arg} (hargs : cmd.args = front ++ a :: back)
    (htest : a.check c [] = true) : ∃ b ∈ front ++ [a], cmd.check [] c = some b := by
  have hsome : ((front ++ [a]).find? fun b => b.check c []).isSome := by
    rw [List.find?_isSome]
    exact ⟨a, by simp, htest⟩
  obtain ⟨b, hb⟩ := Option.isSome_iff_exists.mp hsome
  refine ⟨b, List.mem_of_find?_eq_some hb, ?_⟩
  rw [Command.check, hargs, List.append_cons, List.find?_append, hb]
  rfl

theorem OneEach.covered (h : OneEach cmd) : Covered cmd := by
  intro front a back hargs hlf c hc
  have htest : a.check c [] = true := (letter_test hc).mpr (.inr hlf)
  obtain ⟨b, hb, hcheck⟩ := exists_of_test hargs htest
  exact ⟨b, hb, ((h.letter c b hc).mp hcheck).2⟩

theorem Covered.sf_eq (h : Covered cmd) (hc : c ≠ NOSF) (hcheck : cmd.check [] c = some a) :
    a.sf = c := by
  obtain ⟨htest, front, back, hargs, hfront⟩ := check_split hcheck
  rcases (letter_test hc).mp htest with hsf | hlf
  · exact hsf
  · obtain ⟨b, hb, hsf⟩ := h front a back hargs hlf c hc
    rcases List.mem_append.mp hb with hb | hb
    · have hfalse := hfront b hb
      rw [(letter_test hc).mpr (.inl hsf)] at hfalse
      cases hfalse
    · rw [← List.mem_singleton.mp hb]
      exact hsf

theorem Covered.oneEach (h : Covered cmd) : OneEach cmd where
  toApart := apart cmd
  letter c a hc := by
    constructor
    · intro hcheck
      exact ⟨List.mem_of_find?_eq_some hcheck, h.sf_eq hc hcheck⟩
    · intro hmem
      obtain ⟨ha, rfl⟩ := hmem
      obtain ⟨front, back, hargs⟩ := List.append_of_mem ha
      obtain ⟨b, hb, hcheck⟩ := exists_of_test hargs ((letter_test hc).mpr (.inl rfl))
      have hsf : b.sf = a.sf := h.sf_eq hc hcheck
      rcases List.mem_append.mp hb with hb | hb
      · exact absurd hsf (sf_ne_of_before hargs hc hb)
      · rw [hcheck, List.mem_singleton.mp hb]

theorem oneEach_iff (cmd : Command) : OneEach cmd ↔ Covered cmd :=
  ⟨OneEach.covered, Covered.oneEach⟩

end Lookup

/-- Every argument has a long name. -/
def Long (args : List Arg) : Prop := ∀ a ∈ args, a.lf ≠ []

structure Parser.Long (p : Parser) : Prop where
  commands : ∀ c ∈ p.commands, Args.Long c.command.args
  globals : Args.Long p.globals

structure Program.Long (s : Program) : Prop where
  drafts : ∀ c ∈ s.drafts, Args.Long c.command.args
  parser : s.parser.Long

section Histories
variable {cmd cmd' : Command} {a : Arg} {p q : Parser} {s t : Program} {r : Registration}
  {rs : List Registration}

theorem Long.covered (h : Long cmd.args) : Covered cmd := by
  intro front a back hargs hlf
  have ha : a ∈ cmd.args := by
    rw [hargs]
    exact List.mem_append_right _ List.mem_cons_self
  exact absurd hlf (h a ha)

theorem Long.append {as : List Arg} (h : Long as) (ha : a.lf ≠ []) : Long (as ++ [a]) := by
  intro b hb
  rcases List.mem_append.mp hb with hb | hb
  · exact h b hb
  · rw [List.mem_singleton.mp hb]
    exact ha

theorem map_eq_ok {α β : Type} {x : Except Chars α} {f : α → β} {y : β} (h : x.map f = .ok y) :
    ∃ z, x = .ok z ∧ f z = y := by
  cases x with
  | error message => cases h
  | ok z => exact ⟨z, rfl, Except.ok.inj h⟩

theorem apply_args (h : cmd.apply a = .ok cmd') :
    a.lf ≠ [] ∧ cmd'.args = cmd.args ++ [a] := by
  unfold Command.apply at h
  split_ifs at h with hlf
  split at h
  · cases h
  · obtain rfl := Except.ok.inj h
    exact ⟨hlf, rfl⟩

theorem long_apply (h : Long cmd.args) (happly : cmd.apply a = .ok cmd') : Long cmd'.args := by
  obtain ⟨hlf, hargs⟩ := apply_args happly
  rw [hargs]
  exact h.append hlf

theorem long_construct {name : Chars} {help : Bool} {c : Registered}
    (h : construct name help = .ok c) : Long c.command.args := by
  have hnil : Long Command.bare.args := fun a ha => absurd ha List.not_mem_nil
  unfold construct at h
  split_ifs at h
  · obtain ⟨cmd, hcmd, rfl⟩ := map_eq_ok h
    exact long_apply hnil hcmd
  · obtain rfl := Except.ok.inj h
    exact hnil

theorem long_copies {gs : List Arg} (h : Long cmd.args) (hgs : Long gs) :
    Long (gs.foldl Command.copy cmd).args := by
  induction gs generalizing cmd with
  | nil => exact h
  | cons g gs ih =>
    have hcopy : Long (cmd.copy g).args := by
      rw [copy_args]
      split_ifs
      · exact h.append (hgs g List.mem_cons_self)
      · rw [List.append_nil]
        exact h
    exact ih hcopy fun a ha => hgs a (List.mem_cons_of_mem g ha)

theorem Parser.Long.apply {name : Chars} (h : p.Long) (happly : p.apply name a = .ok q) :
    q.Long := by
  unfold Parser.apply at happly
  cases hfind : p.find name with
  | none =>
    rw [hfind] at happly
    obtain rfl := Except.ok.inj happly
    exact h
  | some c =>
    rw [hfind] at happly
    obtain ⟨cmd, hcmd, rfl⟩ := map_eq_ok happly
    have hlong : Args.Long cmd.args := long_apply (h.commands c (find_eq_some.mp hfind).1) hcmd
    refine ⟨fun d hd => ?_, h.globals⟩
    obtain ⟨e, he, rfl⟩ := List.mem_map.mp hd
    unfold Registered.replaced
    split_ifs
    · exact hlong
    · exact h.commands e he

theorem Parser.Long.addArg (h : p.Long) (ha : a.lf ≠ []) (hadd : p.addArg a = .ok q) :
    q.Long := by
  unfold Parser.addArg at hadd
  split_ifs at hadd
  obtain rfl := Except.ok.inj hadd
  exact ⟨h.commands, h.globals.append ha⟩

theorem Parser.Long.addCommand {c : Registered} (h : p.Long) (hc : Args.Long c.command.args)
    (hadd : p.addCommand c = .ok q) : q.Long := by
  unfold Parser.addCommand at hadd
  split_ifs at hadd
  obtain rfl := Except.ok.inj hadd
  refine ⟨fun d hd => ?_, h.globals⟩
  rcases List.mem_append.mp hd with hd | hd
  · exact h.commands d hd
  · rw [List.mem_singleton.mp hd]
    exact long_copies hc h.globals

/-- Only `Parser::add(Arg&&)` lets an argument in that has no long name. -/
theorem Program.Long.step (h : s.Long) (hr : ∀ a, r = .global a → a.lf ≠ [])
    (hstep : s.step r = .ok t) : t.Long := by
  unfold Program.step at hstep
  cases r with
  | construct name help =>
    obtain ⟨c, hc, rfl⟩ := map_eq_ok hstep
    refine ⟨fun d hd => ?_, h.parser⟩
    rcases List.mem_append.mp hd with hd | hd
    · exact h.drafts d hd
    · rw [List.mem_singleton.mp hd]
      exact long_construct hc
  | apply i a =>
    dsimp only at hstep
    cases hdraft : s.drafts[i]? with
    | none =>
      rw [hdraft] at hstep
      obtain rfl := Except.ok.inj hstep
      exact h
    | some c =>
      rw [hdraft] at hstep
      obtain ⟨cmd, hcmd, rfl⟩ := map_eq_ok hstep
      refine ⟨fun d hd => ?_, h.parser⟩
      rcases List.mem_or_eq_of_mem_set hd with hd | rfl
      · exact h.drafts d hd
      · exact long_apply (h.drafts c (List.mem_of_getElem? hdraft)) hcmd
  | handler name a =>
    obtain ⟨p, hp, rfl⟩ := map_eq_ok hstep
    exact ⟨h.drafts, h.parser.apply hp⟩
  | global a =>
    obtain ⟨p, hp, rfl⟩ := map_eq_ok hstep
    exact ⟨h.drafts, h.parser.addArg (hr a rfl) hp⟩
  | command i =>
    dsimp only at hstep
    cases hdraft : s.drafts[i]? with
    | none =>
      rw [hdraft] at hstep
      obtain rfl := Except.ok.inj hstep
      exact h
    | some c =>
      rw [hdraft] at hstep
      obtain ⟨p, hp, rfl⟩ := map_eq_ok hstep
      exact ⟨h.drafts, h.parser.addCommand (h.drafts c (List.mem_of_getElem? hdraft)) hp⟩

theorem Program.Long.run (h : s.Long) (hrs : ∀ a, .global a ∈ rs → a.lf ≠ [])
    (hrun : s.run rs = .ok t) : t.Long := by
  induction rs generalizing s with
  | nil =>
    obtain rfl := Except.ok.inj hrun
    exact h
  | cons r rs ih =>
    rw [Program.run] at hrun
    cases hstep : s.step r with
    | error message =>
      rw [hstep] at hrun
      cases hrun
    | ok u =>
      rw [hstep] at hrun
      have hu : u.Long := h.step (fun a hr => hrs a (hr ▸ List.mem_cons_self)) hstep
      exact ih hu (fun a ha => hrs a (List.mem_cons_of_mem r ha)) hrun

/-- The constructor of the parser. -/
theorem long_register (h : register [] = .ok p) : p.Long := by
  have hcheck : (register []).toOption.all fun p => p.commands.all (fun c =>
      c.command.args.all fun a => a.lf ≠ []) && p.globals.all fun a => a.lf ≠ [] := by decide
  rw [h] at hcheck
  have hlong : (∀ c ∈ p.commands, ∀ a ∈ c.command.args, a.lf ≠ []) ∧
      ∀ a ∈ p.globals, a.lf ≠ [] := by
    simpa [Except.toOption, and_comm] using hcheck
  exact ⟨hlong.1, hlong.2⟩

theorem long_history (hrs : ∀ a, .global a ∈ rs → a.lf ≠ []) (h : history rs = .ok s) :
    s.Long := by
  unfold history at h
  cases hp : register [] with
  | error message =>
    rw [hp] at h
    cases h
  | ok p =>
    rw [hp] at h
    have hstart : (⟨[], p⟩ : Program).Long :=
      ⟨fun c hc => absurd hc List.not_mem_nil, long_register hp⟩
    exact hstart.run hrs h

theorem Program.Long.command (h : s.Long) (hcmd : cmd ∈ s.commands) : Args.Long cmd.args := by
  obtain ⟨c, hc, rfl⟩ := List.mem_map.mp hcmd
  rcases List.mem_append.mp hc with hc | hc
  · exact h.drafts c hc
  · exact h.parser.commands c hc

end Histories

/-- Names and letters are told apart in every history, and long names find what they name; letters
do so exactly where every one is taken before an argument without a long name is tried, and always
in a history that adds no such argument to the parser. -/
theorem names_iff (rs : List Registration) (s : Program) (h : history rs = .ok s) :
    (∀ cmd ∈ s.commands, Apart cmd ∧ (OneEach cmd ↔ Covered cmd)) ∧
    ((∀ a, .global a ∈ rs → a.lf ≠ []) → ∀ cmd ∈ s.commands, OneEach cmd) := by
  constructor
  · exact fun cmd _ => ⟨apart cmd, oneEach_iff cmd⟩
  · intro hrs cmd hcmd
    exact (oneEach_iff cmd).mpr ((long_history hrs h).command hcmd).covered

/-- A command with its own help and a copied argument. -/
def subHistory : List Registration :=
  [.global verbose, .construct "sub".toList true, .command 0]

theorem names_iff_sub : ∃ s, history subHistory = .ok s ∧ ∀ cmd ∈ s.commands, OneEach cmd := by
  have hnamed : ∀ a, .global a ∈ subHistory → a.lf ≠ [] := by
    intro a ha
    have heq : a = verbose := by simpa [subHistory] using ha
    rw [heq]
    decide
  exact ⟨_, rfl, (names_iff subHistory _ rfl).2 hnamed⟩

def nameless : Arg := ⟨[], 'x', true, false, [], false, []⟩

/-- Where a global argument has no long name, the letter `z` finds it. -/
theorem not_oneEach_nameless : ¬ ∀ rs s, history rs = .ok s → ∀ cmd ∈ s.commands, OneEach cmd := by
  intro h
  have hfound : (history [.global nameless, .construct "sub".toList false, .command 0]).toOption.any
      fun s => s.commands.any fun cmd =>
        (cmd.check [] 'z').isSome && cmd.args.all fun a => a.sf ≠ 'z' := by decide
  cases hs : history [.global nameless, .construct "sub".toList false, .command 0] with
  | error message =>
    rw [hs] at hfound
    cases hfound
  | ok s =>
    rw [hs] at hfound
    obtain ⟨cmd, hcmd, htest⟩ := List.any_eq_true.mp hfound
    rw [Bool.and_eq_true] at htest
    obtain ⟨a, ha⟩ := Option.isSome_iff_exists.mp htest.1
    have hletter := ((h _ s hs cmd hcmd).letter 'z' a (by decide)).mp ha
    have hother := List.all_eq_true.mp htest.2 a hletter.1
    rw [decide_eq_true_iff] at hother
    exact hother hletter.2

end Suil.Utils.Args
