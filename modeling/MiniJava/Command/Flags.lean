import MiniJava.Text.Bytes
import MiniJava.Text.Quoted
/-!
Flags of a command line. A long flag is written `--name`, `--name=value` or `--name value`. Flags of
one letter can stand in a group, and what follows a letter that takes a value is that value.
-/
namespace MiniJava.Command

/-- A flag is on or off, or it has a text. -/
inductive FlagKind where
  | switch
  | text
  deriving DecidableEq, Repr

structure Flag where
  name : String
  letter : Option Char
  kind : FlagKind
  deriving DecidableEq, Repr

def Flag.display (f : Flag) : String :=
  match f.letter with
  | some c => "-" ++ String.singleton c ++ ", --" ++ f.name
  | none => "--" ++ f.name

inductive FlagFault where
  | badSyntax (arg : String)
  | unknownName (name : String)
  | unknownLetter (group : String)
  | missingText (arg : String)
  | missingLetterText (letter : Char)
  | badSwitch (flag : Flag) (value : String)
  deriving DecidableEq, Repr

/-- The first byte of a text as a character. -/
def firstByte (s : String) : Char :=
  match Bytes.ofString s with
  | b :: _ => Char.ofUInt8 b
  | [] => ' '

def FlagFault.text : FlagFault → String
  | badSyntax arg => "bad flag syntax: " ++ arg
  | unknownName name => "unknown flag: --" ++ name
  | unknownLetter group =>
    "unknown shorthand flag: " ++ Quoted.char (firstByte group) ++ " in -" ++ group
  | missingText arg => "flag needs an argument: " ++ arg
  | missingLetterText letter =>
    "flag needs an argument: " ++ Quoted.char letter ++ " in -" ++ String.singleton letter
  | badSwitch flag value =>
    "invalid argument " ++ Quoted.text value ++ " for " ++ Quoted.text flag.display ++
      " flag: strconv.ParseBool: parsing " ++ Quoted.text value ++ ": invalid syntax"

inductive Setting where
  | switch (name : String) (on : Bool)
  | text (name value : String)
  deriving DecidableEq, Repr

abbrev Settings := List Setting

namespace Settings

/-- Whether a switch is on; the last setting counts. -/
def isOn (s : Settings) (name : String) : Bool :=
  s.foldl (fun on x => match x with
    | .switch n b => if n = name then b else on
    | .text _ _ => on) false

/-- The text of a flag; the last setting counts. -/
def textOf (s : Settings) (name default : String) : String :=
  s.foldl (fun text x => match x with
    | .text n value => if n = name then value else text
    | .switch _ _ => text) default

end Settings

def truth? (s : String) : Option Bool :=
  if s ∈ ["1", "t", "T", "TRUE", "true", "True"] then some true
  else if s ∈ ["0", "f", "F", "FALSE", "false", "False"] then some false
  else none

def Flag.set (f : Flag) (value : String) : Except FlagFault Setting :=
  match f.kind with
  | .text => .ok (.text f.name value)
  | .switch =>
    match truth? value with
    | some on => .ok (.switch f.name on)
    | none => .error (.badSwitch f value)

/-- The settings of one argument, and the flag whose text is the next argument with the fault if
there is none. -/
structure Group where
  settings : Settings
  waiting : Option (Flag × FlagFault) := none

/-- A group of letters. Groups that start with `test.` set nothing. -/
def letters (flags : List Flag) : List Char → Except FlagFault Group
  | [] => .ok ⟨[], none⟩
  | c :: cs =>
    if "test.".toList.isPrefixOf (c :: cs) then .ok ⟨[], none⟩
    else
      match flags.find? (·.letter == some c) with
      | none => .error (.unknownLetter (String.ofList (c :: cs)))
      | some f =>
        match f.kind, cs with
        | _, '=' :: v :: vs => do return ⟨[← f.set (String.ofList (v :: vs))], none⟩
        | .switch, _ => do
          let first ← f.set "true"
          let rest ← letters flags cs
          return { rest with settings := first :: rest.settings }
        | .text, [] => .ok ⟨[], some (f, .missingLetterText c)⟩
        | .text, _ => do return ⟨[← f.set (String.ofList cs)], none⟩

/-- A long flag, given the argument and what follows its two dashes. -/
def long (flags : List Flag) (arg : String) (body : List Char) : Except FlagFault Group :=
  let name := body.takeWhile (· != '=')
  if name.isEmpty || name.head? == some '-' then .error (.badSyntax arg)
  else
    match flags.find? (·.name == String.ofList name) with
    | none => .error (.unknownName (String.ofList name))
    | some f =>
      match body.dropWhile (· != '='), f.kind with
      | _ :: value, _ => do return ⟨[← f.set (String.ofList value)], none⟩
      | [], .switch => do return ⟨[← f.set "true"], none⟩
      | [], .text => .ok ⟨[], some (f, .missingText arg)⟩

/-- The flags of an argument, if it has any. -/
def group? (flags : List Flag) (arg : String) : Option (Except FlagFault Group) :=
  match arg.toList with
  | '-' :: '-' :: body => some (long flags arg body)
  | '-' :: c :: cs => some (letters flags (c :: cs))
  | _ => none

structure CommandLine where
  settings : Settings
  args : List String
  deriving DecidableEq, Repr

/-- Reads a command line. Flags may follow plain arguments, and `--` ends them. -/
def CommandLine.parse (flags : List Flag) : List String → Except FlagFault CommandLine
  | [] => .ok ⟨[], []⟩
  | arg :: rest =>
    if arg = "--" then .ok ⟨[], rest⟩
    else
      match group? flags arg with
      | none => do
        let line ← parse flags rest
        return { line with args := arg :: line.args }
      | some group => do
        let g ← group
        match g.waiting, rest with
        | none, rest =>
          let line ← parse flags rest
          return { line with settings := g.settings ++ line.settings }
        | some (f, _), value :: rest =>
          let s ← f.set value
          let line ← parse flags rest
          return { line with settings := g.settings ++ s :: line.settings }
        | some (_, fault), [] => .error fault

end MiniJava.Command
