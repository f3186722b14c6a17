import MiniJava.Generate.Emit
import MiniJava.Scope.Journal
import MiniJava.Syntax.Parser
import MiniJava.Typing.Check
/-!
Compilation: a source is read as a program, its names are resolved, its types checked and its code
made. The first of these that finds a fault is the last.
-/
namespace MiniJava

inductive Pass where
  | parser
  | identification
  | typeChecker
  | generation
  deriving DecidableEq, Repr

def Pass.text : Pass → String
  | parser => "parser"
  | identification => "identification"
  | typeChecker => "type checker"
  | generation => "generate codes"

namespace Compile

inductive Event where
  | start (pass : Pass)
  | report (message : Message)
  | generated (count : Nat)
  deriving DecidableEq, Repr

def Event.progress? : Event → Option String
  | start pass => some s!"compiler: start {pass.text}"
  | report _ => none
  | generated count => some s!"compiler: generated {count} instructions"

def Event.message? : Event → Option Message
  | report message => some message
  | _ => none

inductive Failure where
  | invalidProgram
  | generator (fault : Generate.Fault)
  deriving DecidableEq, Repr

def Failure.text? : Failure → Option String
  | invalidProgram => some "compiler: invalid miniJava program"
  | generator fault => fault.text?

/-- The course of a compilation: what is told in order, the tree if there is one, and the code. -/
structure Outcome where
  events : List Event
  tree : Option Program
  code : Except Failure Code

namespace Outcome

def messages (o : Outcome) : List Message := o.events.filterMap Event.message?

def progress (o : Outcome) : List String := o.events.filterMap Event.progress?

end Outcome

def generate (p : Program) (entry : Option MethodKey) : List Event × Except Failure Code :=
  match p.generate entry with
  | .error fault => ([.start .generation], .error (.generator fault))
  | .ok code => ([.start .generation, .generated code.size], .ok code)

def check (p : Program) : List Event × Except Failure Code :=
  let result := p.check
  if result.errors.isEmpty then
    let (events, code) := generate p result.entry
    (.start .typeChecker :: events, code)
  else (.start .typeChecker :: result.errors.map (.report ·.message), .error .invalidProgram)

def resolve (p : Program) : List Event × Except Failure Code :=
  match p.identify {} with
  | .error _ journal =>
    (.start .identification :: journal.reports.map .report, .error .invalidProgram)
  | .ok resolved journal =>
    let (events, code) := check resolved
    (.start .identification :: journal.reports.map .report ++ events, code)

end Compile

open Compile in
def compile (source : Bytes) : Compile.Outcome :=
  match Program.parse source with
  | .error e => ⟨[.start .parser, .report e.message], none, .error .invalidProgram⟩
  | .ok p =>
    let (events, code) := resolve p
    ⟨.start .parser :: events, some p, code⟩

end MiniJava
