import MiniJava.Layout.Classes
import MiniJava.Layout.Frame
import MiniJava.Machine.Instr
/-!
Instructions on their way to code: calls name their method until all methods have an address, and
blocks of the heap are created for what they will hold.
-/
namespace MiniJava

/-- What a block of the heap holds: the fields of an object, or elements of one type. -/
inductive BlockKind where
  | object (cls : String)
  | array (elem : Ty)
  deriving DecidableEq, Repr

end MiniJava

namespace MiniJava.Generate

/-- Why no code can be made. A phrase that passed the checks has none of these faults. -/
inductive Fault where
  | noMain
  | noAddress (method : String)
  | notAValue (name : String)
  | notAssignable (name : String)
  | assignThis
  | unplaced
  | patch (fault : Code.PatchFault)
  deriving DecidableEq, Repr

def Fault.text? : Fault → Option String
  | noMain => some "code generator: no main method"
  | noAddress method => some s!"code generator: no code address for method {method}"
  | notAValue name => some s!"code generator: {name} does not denote a value"
  | notAssignable name => some s!"code generator: cannot assign to {name}"
  | assignThis => some "code generator: cannot assign to *internal.ThisRef"
  | unplaced => none
  | patch fault => some fault.message

/-- An instruction, a call of a method by its name, or the creation of a block. -/
inductive Item where
  | instr (i : Instr)
  | call (target : MethodKey)
  | callOn (target : MethodKey)
  | create (kind : BlockKind)
  deriving DecidableEq, Repr

namespace Item

def prim (p : Prim) : Item := instr (.prim p)

def literal (v : Word) : Item := instr (.of .loadl 0 .zr v)

def reserve (n : Nat) : Item := instr (.of .push 0 .zr (Word.ofNat n))

def drop (n : Nat) : Item := instr (.of .pop 0 .zr (Word.ofNat n))

def this : Item := instr (.of .loada 0 .ob 0)

/-- The register from which a field is counted when no object is given. -/
def fieldBase (p : FieldPlace) : Reg := if p.isStatic then .sb else .ob

/-- Pushes a static field, or a field of the current object. -/
def loadField (p : FieldPlace) : Item := instr (.of .load 0 (fieldBase p) (Word.ofNat p.offset))

def storeField (p : FieldPlace) : Item := instr (.of .store 0 (fieldBase p) (Word.ofNat p.offset))

def loadVariable (offset : Int) : Item := instr (.of .load 0 .lb (Int64.ofInt offset))

def storeVariable (offset : Int) : Item := instr (.of .store 0 .lb (Int64.ofInt offset))

def jump (target : Nat) : Item := instr (.of .jump 0 .cb (Word.ofNat target))

/-- Jumps if the top word is `v`. -/
def jumpIf (v : Word) (target : Nat) : Item := instr (.of .jumpif v .cb (Word.ofNat target))

/-- Leaves a method with `results` words and drops its arguments. -/
def ret (results args : Nat) : Item := instr (.of .ret (Word.ofNat results) .zr (Word.ofNat args))

def halt : Item := instr (.of .halt 0 .zr 0)

def link (address : MethodKey → Option Nat) : Item → Except Fault Instr
  | instr i => .ok i
  | call target =>
    match address target with
    | some a => .ok (.of .call 0 .cb (Word.ofNat a))
    | none => .error (.noAddress target.name)
  | callOn target =>
    match address target with
    | some a => .ok (.of .calli 0 .cb (Word.ofNat a))
    | none => .error (.noAddress target.name)
  | create (.object _) => .ok (.prim .newobj)
  | create (.array _) => .ok (.prim .newarr)

end Item

end MiniJava.Generate
