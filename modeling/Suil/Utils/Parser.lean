import Suil.Utils.Assigned

/-! `suil::args::Parser`. A command is given copies of the global arguments that are there when
it is added. The texts of the help are left out. -/
namespace Suil.Utils.Args
open CText (Chars)

/-- A command and what the parser knows about it. -/
structure Registered where
  name : Chars
  internal : Bool
  command : Command

/-- An argument of the variadic `add`. -/
inductive Item
  | arg (a : Arg)
  | command (c : Registered)

/-- Neither `add` takes a name that is there already. -/
structure Parser where
  commands : List Registered
  globals : List Arg
  named : commands.Pairwise fun c d => c.name ≠ d.name
  unlike : globals.Pairwise fun a b => a.lf ≠ b.lf

theorem check_eq_none {cmd : Command} {lf : Chars} {sf : Char} :
    cmd.check lf sf = none ↔ ∀ a ∈ cmd.args, a.check sf lf = false := by
  simp [Command.check]

/-- A copy of `ga`, if no argument is in its way. -/
def Command.copy (cmd : Command) (ga : Arg) : Command :=
  if h : cmd.check ga.lf ga.sf = none then
    { args := cmd.args ++ [ga]
      distinct := by
        rw [List.pairwise_append]
        refine ⟨cmd.distinct, List.pairwise_singleton _ _, fun a ha b hb => ?_⟩
        rw [List.mem_singleton.mp hb]
        exact check_eq_none.mp h a ha }
  else cmd

namespace Parser

def find (p : Parser) (name : Chars) : Option Registered :=
  p.commands.find? fun c => c.name == name

def findArg (p : Parser) (name : Chars) (sf : Char) : Option Arg :=
  p.globals.find? fun a => a.lf == name || (sf ≠ NOSF && sf == a.sf)

theorem find_eq_none {p : Parser} {name : Chars} :
    p.find name = none ↔ ∀ c ∈ p.commands, c.name ≠ name := by
  simp [find]

theorem findArg_eq_none {p : Parser} {name : Chars} :
    p.findArg name NOSF = none ↔ ∀ a ∈ p.globals, a.lf ≠ name := by
  simp [findArg]

def addArg (p : Parser) (a : Arg) : Except Chars Parser :=
  if h : p.findArg a.lf NOSF = none then
    .ok { p with
      globals := p.globals ++ [a]
      unlike := by
        rw [List.pairwise_append]
        refine ⟨p.unlike, List.pairwise_singleton _ _, fun b hb c hc => ?_⟩
        rw [List.mem_singleton.mp hc]
        exact findArg_eq_none.mp h b hb }
  else .error ("duplicate global argument '".toList ++ a.lf ++ "' already registered".toList)

def addCommand (p : Parser) (c : Registered) : Except Chars Parser :=
  if h : p.find c.name = none then
    .ok { p with
      commands := p.commands ++ [{ c with command := p.globals.foldl Command.copy c.command }]
      named := by
        rw [List.pairwise_append]
        refine ⟨p.named, List.pairwise_singleton _ _, fun d hd e he => ?_⟩
        rw [List.mem_singleton.mp he]
        exact find_eq_none.mp h d hd }
  else .error ("command with name '".toList ++ c.name ++ " already registered".toList)

def add (p : Parser) : Item → Except Chars Parser
  | .arg a => p.addArg a
  | .command c => p.addCommand c

/-- The variadic `add`. -/
def addAll (p : Parser) : List Item → Except Chars Parser
  | [] => .ok p
  | item :: items =>
    match p.add item with
    | .error message => .error message
    | .ok p => p.addAll items

end Parser

def helpArg : Arg := ⟨"help".toList, 'h', true, false, [], false, []⟩

def ver : Registered := ⟨"version".toList, true, ⟨[], List.Pairwise.nil⟩⟩

def help : Registered := ⟨"help".toList, true, ⟨[], List.Pairwise.nil⟩⟩

/-- What the constructor adds. -/
def builtin : List Item := [.arg helpArg, .command ver, .command help]

def empty : Parser := ⟨[], [], List.Pairwise.nil, List.Pairwise.nil⟩

/-- A parser that `items` were added to. -/
def register (items : List Item) : Except Chars Parser := empty.addAll (builtin ++ items)

/-- How `Parser::parse` ends: it exits with a text, or leaves the command that was parsed. -/
inductive Result
  | usage
  | badFlag (flag : Chars)
  | freeFlag
  | unknown (cmdstr : Chars)
  | refused (cmd : Chars) (message : Chars)
  | help (cmd : Chars)
  | handled (cmd : Chars) (s : State)
  | parsed (cmd : Chars) (s : State)

def Parser.parse (p : Parser) (T : Table) (console : Console) : List Chars → Result
  | [] => .usage
  | [_] => .usage
  | _ :: cmdstr :: argv =>
    if cmdstr.head? = some '-' then
      if isValid cmdstr = 0 then .badFlag cmdstr else .freeFlag
    else
      match p.find cmdstr with
      | none => .unknown cmdstr
      | some cmd =>
        match Args.parse T console cmd.command ⟨[], []⟩ argv with
        | ⟨.thrown message, _⟩ => .refused cmd.name message
        | ⟨.returned isHelp, s⟩ =>
          if isHelp then .help cmd.name
          else if cmd.internal then .handled cmd.name s
          else .parsed cmd.name s

def Item.arg? : Item → Option Arg
  | .arg a => some a
  | .command _ => none

def Item.command? : Item → Option Registered
  | .arg _ => none
  | .command c => some c

def globalsOf (items : List Item) : List Arg := items.filterMap Item.arg?

def commandsOf (items : List Item) : List Registered := items.filterMap Item.command?

/-- No two commands have one name, and no two global arguments one name or one letter. -/
structure Distinct (items : List Item) : Prop where
  names : (commandsOf items).Pairwise fun c d => c.name ≠ d.name
  globals : (globalsOf items).Pairwise fun a b => a.check b.sf b.lf = false

/-- What a command accepts that has all of `gs` and its own arguments, which go first. -/
def Complete (own : Command) (gs : List Arg) (cmd : Command) : Prop :=
  ∀ a, a ∈ cmd.args ↔ a ∈ own.args ∨ a ∈ gs ∧ own.check a.lf a.sf = none

/-- In every order each command is complete and each command line has the same result. -/
def OrderFree (items : List Item) : Prop :=
  ∀ items', items.Perm items' → ∃ p p', register items = .ok p ∧ register items' = .ok p' ∧
    (∀ c ∈ commandsOf (builtin ++ items), ∃ d, p'.find c.name = some d ∧
      Complete c.command (globalsOf (builtin ++ items)) d.command) ∧
    ∀ T console argv, p.parse T console argv = p'.parse T console argv

section Copies
variable {cmd : Command} {ga a : Arg} {gs : List Arg}

theorem copy_args : (cmd.copy ga).args =
    cmd.args ++ if cmd.check ga.lf ga.sf = none then [ga] else [] := by
  unfold Command.copy
  split_ifs
  · rfl
  · exact (List.append_nil _).symm

/-- A copy does not stand in the way of what it does not answer to. -/
theorem check_copy (h : ga.check a.sf a.lf = false) :
    (cmd.copy ga).check a.lf a.sf = none ↔ cmd.check a.lf a.sf = none := by
  rw [check_eq_none, check_eq_none, copy_args]
  constructor
  · exact fun hall b hb => hall b (List.mem_append_left _ hb)
  · intro hall b hb
    rcases List.mem_append.mp hb with hb | hb
    · exact hall b hb
    · split_ifs at hb
      · rw [List.mem_singleton.mp hb]
        exact h
      · exact absurd hb List.not_mem_nil

/-- A command gets those of the global arguments that none of its own answers to. -/
theorem foldl_copy_args (h : gs.Pairwise fun a b => a.check b.sf b.lf = false) :
    (gs.foldl Command.copy cmd).args =
      cmd.args ++ gs.filter fun ga => cmd.check ga.lf ga.sf = none := by
  induction gs generalizing cmd with
  | nil => exact (List.append_nil _).symm
  | cons ga gs ih =>
    obtain ⟨hga, hgs⟩ := List.pairwise_cons.mp h
    have hrest : (gs.filter fun a => (cmd.copy ga).check a.lf a.sf = none) =
        gs.filter fun a => cmd.check a.lf a.sf = none := by
      apply List.filter_congr
      intro a ha
      rw [decide_eq_decide]
      exact check_copy (hga a ha)
    rw [List.foldl_cons, ih hgs, hrest, copy_args, List.append_assoc, List.filter_cons]
    by_cases hcheck : cmd.check ga.lf ga.sf = none
    · rw [if_pos hcheck, if_pos (decide_eq_true hcheck)]
      rfl
    · rw [if_neg hcheck, if_neg (by simp [hcheck])]
      rfl

theorem check_self (a : Arg) : a.check a.sf a.lf = true := by
  simp [Arg.check]

end Copies

section Added
variable {p : Parser} {items : List Item}

/-- The commands among `items` with the copies they get, where `gs` is there before. -/
def added (gs : List Arg) : List Item → List Registered
  | [] => []
  | .arg a :: items => added (gs ++ [a]) items
  | .command c :: items =>
    { c with command := gs.foldl Command.copy c.command } :: added gs items

theorem added_append (gs : List Arg) (items items' : List Item) :
    added gs (items ++ items') = added gs items ++ added (gs ++ globalsOf items) items' := by
  induction items generalizing gs with
  | nil =>
    show added gs items' = added (gs ++ []) items'
    rw [List.append_nil]
  | cons item items ih =>
    cases item with
    | arg a =>
      have hgs : gs ++ globalsOf (.arg a :: items) = gs ++ [a] ++ globalsOf items :=
        (List.append_assoc gs [a] _).symm
      rw [hgs]
      exact ih _
    | command c => exact congrArg (_ :: ·) (ih gs)

theorem addArg_eq (a : Arg) (h : ∀ b ∈ p.globals, b.lf ≠ a.lf) : ∃ q, p.add (.arg a) = .ok q ∧
    q.globals = p.globals ++ [a] ∧ q.commands = p.commands := by
  rw [Parser.add, Parser.addArg, dif_pos (Parser.findArg_eq_none.mpr h)]
  exact ⟨_, rfl, rfl, rfl⟩

theorem addCommand_eq (c : Registered) (h : ∀ d ∈ p.commands, d.name ≠ c.name) :
    ∃ q, p.add (.command c) = .ok q ∧ q.globals = p.globals ∧ q.commands =
      p.commands ++ [{ c with command := p.globals.foldl Command.copy c.command }] := by
  rw [Parser.add, Parser.addCommand, dif_pos (Parser.find_eq_none.mpr h)]
  exact ⟨_, rfl, rfl, rfl⟩

/-- What comes before an item differs from it in what the whole list keeps apart. -/
theorem ne_of_nodup {α β : Type} {f : α → β} {front back : List α} {x y : α}
    (h : ((front ++ x :: back).map f).Nodup) (hy : y ∈ front) : f y ≠ f x := by
  rw [List.map_append, List.nodup_append] at h
  exact h.2.2 _ (List.mem_map_of_mem hy) _ (List.mem_map_of_mem List.mem_cons_self)

theorem addAll_eq (hnames : ((p.commands ++ commandsOf items).map Registered.name).Nodup)
    (hglobals : ((p.globals ++ globalsOf items).map Arg.lf).Nodup) :
    ∃ q, p.addAll items = .ok q ∧ q.globals = p.globals ++ globalsOf items ∧
      q.commands = p.commands ++ added p.globals items := by
  induction items generalizing p with
  | nil => exact ⟨p, rfl, (List.append_nil _).symm, (List.append_nil _).symm⟩
  | cons item items ih =>
    cases item with
    | arg a =>
      obtain ⟨q, hq, hqg, hqc⟩ := addArg_eq a fun b hb => ne_of_nodup hglobals hb
      have hglobals' : ((q.globals ++ globalsOf items).map Arg.lf).Nodup := by
        rw [hqg, List.append_assoc]
        exact hglobals
      obtain ⟨r, hr, hrg, hrc⟩ := ih (hqc ▸ hnames) hglobals'
      refine ⟨r, ?_, ?_, ?_⟩
      · rw [Parser.addAll, hq]
        exact hr
      · rw [hrg, hqg, List.append_assoc]
        rfl
      · rw [hrc, hqc, hqg]
        rfl
    | command c =>
      obtain ⟨q, hq, hqg, hqc⟩ := addCommand_eq c fun d hd => ne_of_nodup hnames hd
      have hnames' : ((q.commands ++ commandsOf items).map Registered.name).Nodup := by
        rw [hqc, List.append_assoc, List.map_append]
        rw [List.map_append] at hnames
        exact hnames
      obtain ⟨r, hr, hrg, hrc⟩ := ih hnames' (hqg ▸ hglobals)
      refine ⟨r, ?_, ?_, ?_⟩
      · rw [Parser.addAll, hq]
        exact hr
      · rw [hrg, hqg]
        rfl
      · rw [hrc, hqc, hqg, List.append_assoc]
        rfl

/-- All that was said apart is added, and nothing else. -/
theorem register_eq (h : Distinct (builtin ++ items)) : ∃ p, register items = .ok p ∧
    p.commands = added [] (builtin ++ items) := by
  have hnames : ((empty.commands ++ commandsOf (builtin ++ items)).map Registered.name).Nodup := by
    rw [empty, List.nil_append, List.Nodup, List.pairwise_map]
    exact h.names
  have hglobals : ((empty.globals ++ globalsOf (builtin ++ items)).map Arg.lf).Nodup := by
    rw [empty, List.nil_append, List.Nodup, List.pairwise_map]
    refine h.globals.imp fun {a b} hab heq => ?_
    rw [Arg.check, Bool.or_eq_false_iff, heq] at hab
    simp at hab
  obtain ⟨p, hp, -, hcommands⟩ := addAll_eq hnames hglobals
  exact ⟨p, hp, hcommands⟩

theorem find_eq_some {name : Chars} {c : Registered} :
    p.find name = some c ↔ c ∈ p.commands ∧ c.name = name := by
  unfold Parser.find
  constructor
  · intro h
    have hname : (c.name == name) = true := by
      simpa only using List.find?_some h
    exact ⟨List.mem_of_find?_eq_some h, eq_of_beq hname⟩
  · rintro ⟨hc, rfl⟩
    apply find_of_pairwise p.named hc
    · exact beq_self_eq_true _
    · exact fun d _ hd => beq_eq_false_iff_ne.mpr hd

/-- A command is found with its own arguments and those global ones that were added before it and
that none of its own answers to. -/
theorem find_added {pre post : List Item} {c : Registered} (hp : p.commands = added [] items)
    (hitems : items = pre ++ .command c :: post) (h : Distinct items) :
    ∃ d, p.find c.name = some d ∧ d.internal = c.internal ∧ d.command.args = c.command.args ++
      (globalsOf pre).filter fun ga => c.command.check ga.lf ga.sf = none := by
  have hmem : { c with command := (globalsOf pre).foldl Command.copy c.command } ∈ p.commands := by
    rw [hp, hitems, added_append]
    exact List.mem_append_right _ List.mem_cons_self
  have hpre : (globalsOf pre).Pairwise fun a b => a.check b.sf b.lf = false := by
    have hglobals := h.globals
    rw [hitems, globalsOf, List.filterMap_append, List.pairwise_append] at hglobals
    exact hglobals.1
  exact ⟨_, find_eq_some.mpr ⟨hmem, rfl⟩, rfl, foldl_copy_args hpre⟩

/-- A command is complete when no global argument that it could take comes after it. -/
theorem complete_iff {own cmd : Command} {front back : List Arg}
    (hargs : cmd.args = own.args ++ front.filter fun ga => own.check ga.lf ga.sf = none)
    (hdistinct : (front ++ back).Pairwise fun a b => a.check b.sf b.lf = false) :
    Complete own (front ++ back) cmd ↔ ∀ ga ∈ back, own.check ga.lf ga.sf ≠ none := by
  unfold Complete
  rw [hargs]
  constructor
  · intro hall ga hga hnone
    have hmem := (hall ga).mpr (.inr ⟨List.mem_append_right _ hga, hnone⟩)
    rcases List.mem_append.mp hmem with hown | hfront
    · have hself : ga.check ga.sf ga.lf = false := check_eq_none.mp hnone ga hown
      rw [check_self] at hself
      cases hself
    · rw [List.pairwise_append] at hdistinct
      have hself := hdistinct.2.2 ga (List.mem_filter.mp hfront).1 ga hga
      rw [check_self] at hself
      cases hself
  · intro hback ga
    rw [List.mem_append, List.mem_filter, List.mem_append, decide_eq_true_iff]
    constructor
    · rintro (hown | ⟨hfront, hnone⟩)
      · exact .inl hown
      · exact .inr ⟨.inl hfront, hnone⟩
    · rintro (hown | ⟨hfront | hga, hnone⟩)
      · exact .inl hown
      · exact .inr ⟨hfront, hnone⟩
      · exact absurd hnone (hback ga hga)

theorem added_commands (gs : List Arg) (h : globalsOf items = []) : added gs items =
    (commandsOf items).map fun c => { c with command := gs.foldl Command.copy c.command } := by
  induction items with
  | nil => rfl
  | cons item items ih =>
    cases item with
    | arg a => cases h
    | command c => exact congrArg (_ :: ·) (ih h)

theorem parse_congr {p q : Parser} (h : ∀ name, p.find name = q.find name) (T : Table)
    (console : Console) (argv : List Chars) : p.parse T console argv = q.parse T console argv := by
  match argv with
  | [] => rfl
  | [_] => rfl
  | _ :: cmdstr :: argv => rw [Parser.parse, Parser.parse, h]

theorem find_perm {p q : Parser} (h : p.commands.Perm q.commands) (name : Chars) :
    p.find name = q.find name := by
  apply Option.ext
  intro c
  rw [find_eq_some, find_eq_some, h.mem_iff]

theorem registered_complete_iff {pre post : List Item} {c : Registered}
    (hp : p.commands = added [] items) (h : Distinct items)
    (hitems : items = pre ++ .command c :: post) : ∃ d, p.find c.name = some d ∧
      (Complete c.command (globalsOf items) d.command ↔
        ∀ ga ∈ globalsOf post, c.command.check ga.lf ga.sf ≠ none) := by
  obtain ⟨d, hd, -, hargs⟩ := find_added hp hitems h
  have hglobals : globalsOf items = globalsOf pre ++ globalsOf post := by
    rw [hitems, globalsOf, List.filterMap_append]
    rfl
  refine ⟨d, hd, ?_⟩
  rw [hglobals]
  exact complete_iff hargs (hglobals ▸ h.globals)

theorem eq_append_of_command {c : Registered} (hc : c ∈ commandsOf items) :
    ∃ pre post, items = pre ++ .command c :: post := by
  obtain ⟨item, hitem, hcommand⟩ := List.mem_filterMap.mp hc
  cases item with
  | arg a => cases hcommand
  | command d =>
    obtain rfl := Option.some.inj hcommand
    exact List.append_of_mem hitem

section Order
variable {items' : List Item}

theorem globalsOf_perm (hperm : items.Perm items') (hnone : globalsOf items = []) :
    globalsOf items' = [] := by
  have hglobals : (globalsOf items).Perm (globalsOf items') := hperm.filterMap Item.arg?
  rw [hnone] at hglobals
  exact hglobals.nil_eq.symm

theorem globalsOf_builtin (hnone : globalsOf items = []) :
    globalsOf (builtin ++ items) = [helpArg] := by
  show helpArg :: globalsOf items = [helpArg]
  rw [hnone]

theorem Distinct.perm (h : Distinct (builtin ++ items)) (hperm : items.Perm items')
    (hnone : globalsOf items = []) : Distinct (builtin ++ items') where
  names := by
    have hcommands : (commandsOf (builtin ++ items)).Perm (commandsOf (builtin ++ items')) :=
      (hperm.append_left builtin).filterMap Item.command?
    exact (hcommands.pairwise_iff fun hne => hne.symm).mp h.names
  globals := by
    rw [globalsOf_builtin (globalsOf_perm hperm hnone)]
    exact List.pairwise_singleton _ _

/-- The flag of the constructor comes before every command. -/
theorem globalsOf_behind {pre post : List Item} {c : Registered} (hnone : globalsOf items = [])
    (hitems : builtin ++ items = pre ++ .command c :: post) : globalsOf post = [] := by
  have hglobals := globalsOf_builtin hnone
  rw [hitems, globalsOf, List.filterMap_append] at hglobals
  cases pre with
  | nil => cases hitems
  | cons item pre =>
    obtain ⟨rfl, -⟩ := List.cons.inj hitems
    have hrest : globalsOf pre ++ globalsOf post = [] := (List.cons.inj hglobals).2
    exact (List.append_eq_nil_iff.mp hrest).2

/-- Without further global arguments each command has the flag of the constructor, and is found by
its name. -/
theorem orderFree_of_commands (h : Distinct (builtin ++ items)) (hnone : globalsOf items = []) :
    OrderFree items := by
  intro items' hperm
  have hnone' : globalsOf items' = [] := globalsOf_perm hperm hnone
  have h' : Distinct (builtin ++ items') := h.perm hperm hnone
  obtain ⟨p, hp, hcommands⟩ := register_eq h
  obtain ⟨p', hp', hcommands'⟩ := register_eq h'
  refine ⟨p, p', hp, hp', ?_, ?_⟩
  · intro c hc
    have hmem : c ∈ commandsOf (builtin ++ items') :=
      ((hperm.append_left builtin).filterMap Item.command?).mem_iff.mp hc
    obtain ⟨pre, post, hitems⟩ := eq_append_of_command hmem
    obtain ⟨d, hd, hcomplete⟩ := registered_complete_iff hcommands' h' hitems
    refine ⟨d, hd, ?_⟩
    rw [globalsOf_builtin hnone, ← globalsOf_builtin hnone', hcomplete,
      globalsOf_behind hnone' hitems]
    exact fun ga hga => absurd hga List.not_mem_nil
  · apply parse_congr
    apply find_perm
    have hadded : ∀ l, globalsOf l = [] → added [] (builtin ++ l) =
        (ver :: help :: commandsOf l).map fun c =>
          { c with command := [helpArg].foldl Command.copy c.command } := by
      intro l hl
      have hrest : globalsOf (.command ver :: .command help :: l) = [] := hl
      exact added_commands [helpArg] hrest
    rw [hcommands, hcommands', hadded _ hnone, hadded _ hnone']
    exact (((hperm.filterMap Item.command?).cons help).cons ver).map _

end Order

end Added

/-- A command is complete exactly when no global argument that it could take is added after it,
and the order does not matter exactly when there is none besides that of the constructor. -/
theorem order_iff (items : List Item) (h : Distinct (builtin ++ items)) :
    (∀ pre c post, builtin ++ items = pre ++ .command c :: post → ∃ p d,
      register items = .ok p ∧ p.find c.name = some d ∧
      (Complete c.command (globalsOf (builtin ++ items)) d.command ↔
        ∀ ga ∈ globalsOf post, c.command.check ga.lf ga.sf ≠ none)) ∧
    (OrderFree items ↔ globalsOf items = []) := by
  obtain ⟨p, hp, hcommands⟩ := register_eq h
  constructor
  · intro pre c post hitems
    obtain ⟨d, hd, hcomplete⟩ := registered_complete_iff hcommands h hitems
    exact ⟨p, d, hp, hd, hcomplete⟩
  · constructor
    · intro horder
      obtain ⟨q, q', -, hq', hcomplete, -⟩ := horder items (List.Perm.refl _)
      obtain rfl := Except.ok.inj (hp.symm.trans hq')
      obtain ⟨d, hd, hver⟩ := hcomplete ver List.mem_cons_self
      have hitems : builtin ++ items =
          [.arg helpArg] ++ .command ver :: .command help :: items := rfl
      obtain ⟨e, he, hiff⟩ := registered_complete_iff hcommands h hitems
      obtain rfl := Option.some.inj (hd.symm.trans he)
      apply List.eq_nil_iff_forall_not_mem.mpr
      exact fun ga hga => hiff.mp hver ga hga rfl
    · exact orderFree_of_commands h

def sub : Registered := ⟨"sub".toList, false, ⟨[], List.Pairwise.nil⟩⟩

def verbose : Arg := ⟨"verbose".toList, 'v', true, false, [], false, []⟩

/-- A command and no global argument. -/
theorem order_iff_sub : OrderFree [.command sub] := by
  have h : Distinct (builtin ++ [.command sub]) := by
    constructor <;> decide
  exact (order_iff [.command sub] h).2.mpr rfl

/-- Whether the command is parsed. -/
def accepts (items : List Item) (argv : List Chars) : Bool :=
  match register items with
  | .error _ => false
  | .ok p =>
    match p.parse exactTable silent argv with
    | .parsed _ _ => true
    | _ => false

/-- `sub -v` is accepted when `verbose` is added first and refused when it is added last. -/
theorem not_orderFree_verbose : ¬ OrderFree [.arg verbose, .command sub] := by
  intro h
  obtain ⟨p, p', hp, hp', -, hparse⟩ := h [.command sub, .arg verbose] (List.Perm.swap _ _ _)
  have hfirst : accepts [.arg verbose, .command sub] ["demo".toList, "sub".toList, "-v".toList] =
      true := by decide
  have hlast : accepts [.command sub, .arg verbose] ["demo".toList, "sub".toList, "-v".toList] =
      false := by decide
  rw [accepts, hp] at hfirst
  rw [accepts, hp'] at hlast
  dsimp only at hfirst hlast
  rw [hparse] at hfirst
  exact Bool.false_ne_true (hlast.symm.trans hfirst)

end Suil.Utils.Args
