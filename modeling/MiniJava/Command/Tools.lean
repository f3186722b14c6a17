import MiniJava.Command.Flags
import MiniJava.Command.Host
import MiniJava.Compile
import MiniJava.Listing.Assembly
import MiniJava.Listing.Print
import MiniJava.Machine.Step
import MiniJava.Object.File
import MiniJava.Syntax.Dump
/-!
The commands: a compiler, an assembler, a lister of object files and an interpreter.
-/
namespace MiniJava.Command

inductive Tool where
  | compiler
  | assembler
  | lister
  | interpreter
  deriving DecidableEq, Repr

namespace Tool

def name : Tool → String
  | compiler => "minijava"
  | assembler => "mjam-asm"
  | lister => "mjam-dis"
  | interpreter => "mjam-run"

def all : List Tool := [compiler, assembler, lister, interpreter]

def ofName? (s : String) : Option Tool := all.find? (·.name == s)

def tag : Tool → String
  | compiler => "[Compiler]: "
  | assembler => "[Assembler]: "
  | lister => "[Disassembler]: "
  | interpreter => "[Interpreter]: "

def outputFlag : Flag := ⟨"output", some 'o', .text⟩

def verboseFlag : Flag := ⟨"verbose", some 'v', .switch⟩

def flags : Tool → List Flag
  | compiler =>
    [outputFlag, ⟨"asm", none, .switch⟩, ⟨"run", none, .switch⟩, ⟨"dump-ast", none, .switch⟩,
      verboseFlag]
  | assembler => [outputFlag, verboseFlag]
  | lister => [outputFlag]
  | interpreter => [verboseFlag]

end Tool

inductive Failure where
  | flag (fault : FlagFault)
  | arguments (count : Nat)
  | openFile (name : String) (fault : FileFault)
  | readFile (name : String) (fault : FileFault)
  | compilation (cause : Compile.Failure)
  | assembly (e : Listing.AssemblyError)
  | object (e : Object.Truncated)
  | stopped (state : Machine.State) (cause : Machine.Stop)
  | during (what : String) (cause : Failure)

namespace Failure

def stopText (s : Machine.State) : Machine.Stop → String
  | .fault f => Machine.errorText s f
  | .failedChannel text => text
  | .crash => "crash"

def text : Failure → Bytes
  | flag fault => Bytes.ofString fault.text
  | arguments count => Bytes.ofString s!"accepts 1 arg(s), received {count}"
  | openFile name fault => Bytes.ofString s!"open {name}: {fault.text}"
  | readFile name fault => Bytes.ofString s!"read {name}: {fault.text}"
  | compilation cause => Bytes.ofString (cause.text?.getD "")
  | assembly e => e.message
  | object e => Bytes.ofString e.message
  | stopped s cause => Bytes.ofString (stopText s cause)
  | during what cause => Bytes.ofString s!"{what}, err: " ++ cause.text

end Failure

section

variable {m : Type → Type} [Monad m] [Host m]

abbrev Work (m : Type → Type) := ExceptT Failure m

def print (bytes : Bytes) : Work m Unit := ExceptT.lift (Host.print bytes)

def warn (bytes : Bytes) : Work m Unit := ExceptT.lift (Host.warn bytes)

def openFile (name : String) : Work m Entry := do
  match ← ExceptT.lift (Host.openFile name) with
  | .ok e => return e
  | .error fault => throw (.openFile name fault)

def saveFile (name : String) (bytes : Bytes) : Work m Unit := do
  match ← ExceptT.lift (Host.saveFile name bytes) with
  | .ok _ => return ()
  | .error fault => throw (.openFile name fault)

def during {α : Type} (what : String) (work : Work m α) : Work m α :=
  ExceptT.adapt (.during what) work

def loadObject (name : String) : Work m Code := do
  match ← openFile name with
  | .directory => throw (.readFile name .isDirectory)
  | .file bytes =>
    match Object.read bytes with
    | .ok is => return is.toArray
    | .error e => throw (.object e)

def inputPrims : List Prim := [.eol, .eof, .get, .geteol, .getint]

def readsInput (code : Code) : Bool :=
  code.any fun i =>
    i.op == Op.call.number && i.r == Reg.pb.number && inputPrims.any fun p => i.d == p.number

/-- Runs code on the input, for at most `fuel` instructions. The input is left alone if the code
cannot read it. -/
def execute (fuel : Nat) (code : Code) : Work m Machine.Run := do
  let input ← if readsInput code then ExceptT.lift Host.readInput else pure []
  let run := Machine.run code fuel 0 (.initial (some ⟨input, none⟩) .accept)
  print run.state.output.written.toList
  return run

def finish (run : Machine.Run) : Work m Unit :=
  match run.ending with
  | .stopped cause => throw (.stopped run.state cause)
  | _ => return ()

def textLine (s : String) : Bytes := Bytes.ofString (s ++ "\n")

/-- The messages of a compilation, with its progress if that is asked for. -/
def report (verbose : Bool) (events : List Compile.Event) : Bytes :=
  events.flatMap fun e => match e with
    | .report message => Message.renderAll [message]
    | e => if verbose then (e.progress?.map textLine).getD [] else []

/-- Where the object file of a source goes if no name is given. -/
def objectName (source : String) : String := FileName.stem source ++ ".mJAM"

def listingName (object : String) : String := FileName.stem object ++ ".asm"

/-- What the compiler is asked to do. An empty output stands for the name that follows from the
source. -/
structure CompileOptions where
  output : String := ""
  asm : Bool := false
  run : Bool := false
  dumpTree : Bool := false
  verbose : Bool := false
  deriving DecidableEq, Repr

namespace CompileOptions

def ofSettings (s : Settings) : CompileOptions where
  output := s.textOf "output" ""
  asm := s.isOn "asm"
  run := s.isOn "run"
  dumpTree := s.isOn "dump-ast"
  verbose := s.isOn "verbose"

def objectPath (o : CompileOptions) (source : String) : String :=
  if o.output.isEmpty then objectName source else o.output

end CompileOptions

def saveCode (fuel : Nat) (o : CompileOptions) (object : String) (code : Code) : Work m Unit := do
  saveFile object (Object.write code.toList)
  if o.verbose then warn (textLine s!"compiler: saved object file {object}")
  if o.asm then saveFile (listingName object) (Listing.print code)
  if o.run then finish (← execute fuel code)

def compileSource (dump : Program → String) (fuel : Nat) (o : CompileOptions) (object : String)
    (source : Bytes) : Work m Unit := do
  let outcome := compile source
  if o.dumpTree then print (Bytes.ofString ((outcome.tree.map dump).getD ""))
  warn (report o.verbose outcome.events)
  match outcome.code with
  | .error cause => throw (.compilation cause)
  | .ok code => saveCode fuel o object code

/-- The compiler, for any way to show a tree. -/
def compileFile (dump : Program → String) (fuel : Nat) (o : CompileOptions) (path : String) :
    Work m Unit := do
  let entry ← openFile path
  compileSource dump fuel o (o.objectPath path) entry.source

def assembleFile (s : Settings) (path : String) : Work m Unit := do
  let entry ← during s!"failed to open file: {path}" (openFile path)
  let code ← during "failed to parse file" <| match entry with
    | .directory => throw (.readFile path .isDirectory)
    | .file text =>
      match Listing.Assembly.assemble text with
      | .ok code => return code
      | .error e => throw (.assembly e)
  if s.isOn "verbose" then print (Listing.print code)
  let output := s.textOf "output" "./output.mJAM"
  during s!"failed to save to path: {output}" (saveFile output (Object.write code.toList))

def listFile (s : Settings) (path : String) : Work m Unit := do
  let code ← loadObject path
  let output := s.textOf "output" ""
  if output.isEmpty then print (Listing.print code) else saveFile output (Listing.print code)

def runFile (fuel : Nat) (s : Settings) (path : String) : Work m Unit := do
  let code ← loadObject path
  let run ← execute fuel code
  if s.isOn "verbose" then warn (textLine s!"[Interpreter]: executed {run.steps} instructions")
  finish run

def Tool.work (fuel : Nat) : Tool → Settings → String → Work m Unit
  | compiler => fun s => compileFile Program.dump fuel (.ofSettings s)
  | assembler => assembleFile
  | lister => listFile
  | interpreter => runFile fuel

/-- Reads the command line, which names one file, and does the work. -/
def Tool.start (t : Tool) (fuel : Nat) (args : List String) : Work m Unit :=
  match CommandLine.parse t.flags args with
  | .error fault => throw (.flag fault)
  | .ok ⟨settings, [path]⟩ => t.work fuel settings path
  | .ok ⟨_, args⟩ => throw (.arguments args.length)

/-- Tells how work has ended; the result is the exit status. -/
def Tool.conclude (t : Tool) : Except Failure Unit → m Nat
  | .ok _ => return 0
  | .error (.compilation .invalidProgram) => do
    Host.warn (textLine (t.tag ++ "compilation failed"))
    return 4
  | .error cause => do
    Host.warn (Bytes.ofString t.tag ++ cause.text ++ textLine "")
    return 1

def Tool.exit (t : Tool) (work : Work m Unit) : m Nat := do t.conclude (← ExceptT.run work)

def Tool.run (t : Tool) (fuel : Nat) (args : List String) : m Nat := t.exit (t.start fuel args)

end

end MiniJava.Command
