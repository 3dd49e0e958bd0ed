import Suil.Lib.CText
import Mathlib.Data.List.Basic

/-! `suil::args::Command::parse`. The reading of one token is separated from the loop over
`argv`; a token that waits for its value takes the next one as it is. The debug output is left
out. -/
namespace Suil.Utils.Args
open CText (Chars)

def NOSF : Char := Char.ofNat 0

structure Arg where
  lf : Chars
  sf : Char
  option : Bool
  required : Bool
  prompt : Chars
  hidden : Bool
  default : Chars
  deriving DecidableEq

def Arg.check (a : Arg) (c : Char) (l : Chars) : Bool := c ≠ NOSF && c == a.sf || l == a.lf

/-- Neither `Command::operator()` nor `Parser::add` adds an argument that an earlier one
answers to. -/
structure Command where
  args : List Arg
  distinct : args.Pairwise fun a b => a.check b.sf b.lf = false

/-- `check`, which throws or returns false for `none`. -/
def Command.check (cmd : Command) (lf : Chars) (sf : Char) : Option Arg :=
  cmd.args.find? fun a => a.check sf lf

def std_string_case_eq (s t : Chars) : Bool := s.map Char.toLower == t.map Char.toLower

/-- How `mParsed` finds a key among those it has. Its hash tells names apart that its equality
does not, so that a name in other letters may be found or not. -/
structure Table where
  finds : List Chars → Chars → Bool
  mem : ∀ {ks k}, k ∈ ks → finds ks k
  sound : ∀ {ks k}, finds ks k → ∃ l ∈ ks, std_string_case_eq l k

/-- What is typed at the prompt of an argument: a line, if there is one, or a password. -/
structure Console where
  line : Arg → Option Chars
  password : Arg → Chars

/-- `mParsed` and `mPositionals`. -/
structure State where
  parsed : List (Chars × Chars)
  positionals : List Chars

inductive Ending
  | returned (isHelp : Bool)
  | thrown (message : Chars)

/-- How `parse` ends, and the state it leaves. -/
structure Outcome where
  ending : Ending
  state : State

def State.throw (s : State) (message : Chars) : Outcome := ⟨.thrown message, s⟩

/-- An `InvalidArguments` about an argument. -/
def State.refuse (s : State) (name : Chars) (text : String) : Outcome :=
  s.throw ("error: command argument '".toList ++ name ++ text.toList)

/-- What a token leads to: the next one, the value of an argument, or the end. -/
inductive Step
  | go (s : State)
  | value (lf : Chars) (s : State)
  | stop (o : Outcome)

def isValid : Chars → ℕ
  | '-' :: c :: flag =>
    if c ≠ '-' then if c.isAlpha then 1 else 0
    else
      match flag with
      | [] => 0
      | d :: _ => if d.isAlpha then 2 else 0
  | _ => 0

/-- The token, which ends where its first `'='` stood. -/
def cArg (t : Chars) : Chars := t.takeWhile (· ≠ '=')

/-- What is read at the byte that was the first `'='`, which is a NUL by then. -/
def cVal (t : Chars) : Option Chars := if '=' ∈ t then some [] else none

section Parse
variable (T : Table) (console : Console) (cmd : Command)

namespace State
variable (s : State)

def keys : List Chars := s.parsed.map Prod.fst

def found (k : Chars) : Bool := T.finds s.keys k

def emplace (k v : Chars) : State :=
  if s.found T k then s else { s with parsed := s.parsed ++ [(k, v)] }

end State

/-- A token `--name`. -/
def longFlag (s : State) (name : Chars) (cVal : Option Chars) : Step :=
  match cmd.check name NOSF with
  | none => .stop (s.refuse ("--".toList ++ name) "' is not recognized")
  | some arg =>
    if arg.prompt ≠ [] then .stop (s.refuse arg.lf "' is supported through prompt")
    else if arg.sf = 'h' then .stop ⟨.returned true, s⟩
    else if s.found T arg.lf then .stop (s.refuse arg.lf "' was already passed")
    else if arg.option then
      match cVal with
      | none => .go (s.emplace T arg.lf "1".toList)
      | some _ => .stop (s.refuse arg.lf "' does not take a value")
    else
      match cVal with
      | none => .value arg.lf s
      | some val => .go (s.emplace T arg.lf val)

/-- The letters of a token `-abc`. -/
def shortFlags (cVal : Option Chars) (s : State) : Chars → Step
  | [] => .go s
  | c :: flags =>
    match cmd.check [] c with
    | none => .stop (s.refuse ['-', c] "' is not recognized")
    | some arg =>
      if arg.sf = 'h' then .stop ⟨.returned true, s⟩
      else if arg.option then
        match cVal with
        | none => shortFlags cVal (s.emplace T arg.lf "1".toList) flags
        | some _ => .stop (s.refuse arg.lf "' assigned a value but it's an option")
      else if flags ≠ [] then .stop (s.refuse arg.lf "' expects a value")
      else
        match cVal with
        | none => .value arg.lf s
        | some val => .go (s.emplace T arg.lf val)

/-- A token that begins with `'-'`. -/
def flag (s : State) (cArg : Chars) (cVal : Option Chars) : Step :=
  match isValid cArg with
  | 0 => .stop (s.throw ("error: Unsupported argument syntax '".toList ++ cArg ++ "'".toList))
  | 2 => longFlag T cmd s (cArg.drop 2) cVal
  | _ => shortFlags T cmd cVal s (cArg.drop 1)

/-- The body of the loop. -/
def token (s : State) (t : Chars) : Step :=
  if (cArg t).head? ≠ some '-' then .go { s with positionals := s.positionals ++ [cArg t] }
  else flag T cmd s (cArg t) (cVal t)

def readParam (a : Arg) : Option Chars :=
  match console.line a with
  | some result => some result
  | none => if a.default ≠ [] then some a.default else none

def readPasswd (a : Arg) : Option Chars := some (console.password a)

def requestValue (s : State) (a : Arg) : Except Chars State :=
  match if a.hidden then readPasswd console a else readParam console a with
  | some result => .ok (s.emplace T a.lf result)
  | none =>
    if a.required then
      .error ("error: required interactive argument '".toList ++ a.lf ++ "' not provided".toList)
    else .ok (s.emplace T a.lf [])

/-- The text that names the missing arguments. -/
def missingText (missing : List Chars) : Chars :=
  "error: missing required arguments: ".toList ++
    List.intercalate ", ".toList (missing.map fun lf => "'".toList ++ lf ++ "'".toList)

/-- The loop over the arguments that follows the one over `argv`. -/
def checkRequired (s : State) (missing : List Chars) : List Arg → Outcome
  | [] => if missing = [] then ⟨.returned false, s⟩ else s.throw (missingText missing)
  | a :: args =>
    if !a.required || s.found T a.lf then checkRequired s missing args
    else if a.prompt ≠ [] then
      match requestValue T console s a with
      | .error message => s.throw message
      | .ok s => checkRequired s missing args
    else checkRequired s (missing ++ [a.lf]) args

/-- `parse` from the state `s` on. -/
def parse (s : State) : List Chars → Outcome
  | [] => checkRequired T console s [] cmd.args
  | t :: argv =>
    match token T cmd s t with
    | .go s => parse s argv
    | .stop o => o
    | .value lf s =>
      match argv with
      | [] => s.refuse lf "' expects a value"
      | v :: argv => parse (s.emplace T lf v) argv

end Parse

end Suil.Utils.Args
