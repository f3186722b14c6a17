import MiniJava.Listing.Operand
import MiniJava.Text.Blank
/-!
Code from text. A line holds an instruction, maybe after its address, or a label `(name)` for the
address of the next instruction; `//` starts a comment. A label may be used before its declaration.
-/
namespace MiniJava.Listing

inductive LineFault where
  | wrongLabel
  | duplicateLabel
  | wrongAddress (given : Word) (actual : Nat)
  | missingInstruction
  | unknownOp (name : Bytes)
  | wrongOperand (text : Bytes)
  | takesNothing (op : Op)
  | takesNumber (op : Op)
  | takesCountAndNumber
  | takesCountAndBased
  | takesBased (op : Op)
  | takesNoCount (op : Op)
  | needsDisplacement (op : Op)
  | unknownRegister (name : String)
  | undefinedLabel (name : String)
  deriving DecidableEq, Repr

def LineFault.text : LineFault → Bytes
  | wrongLabel => Bytes.ofString "wrong label format"
  | duplicateLabel => Bytes.ofString "found duplicate label"
  | wrongAddress given actual =>
    Bytes.ofString s!"address {given.toInt} given to instruction {actual}"
  | missingInstruction => Bytes.ofString "missing instruction"
  | unknownOp name => Bytes.ofString "unknown op " ++ name
  | wrongOperand text => Bytes.ofString "wrong operand format near " ++ text
  | takesNothing op => Bytes.ofString s!"{op.name} takes no operand"
  | takesNumber op => Bytes.ofString s!"{op.name} takes a number"
  | takesCountAndNumber => Bytes.ofString "RETURN takes (n) d"
  | takesCountAndBased => Bytes.ofString "JUMPIF takes (n) d[r]"
  | takesBased op => Bytes.ofString s!"{op.name} takes d[r]"
  | takesNoCount op => Bytes.ofString s!"{op.name} takes no (n)"
  | needsDisplacement op => Bytes.ofString s!"{op.name} needs a displacement"
  | unknownRegister name => Bytes.ofString s!"unknown register {name}"
  | undefinedLabel name => Bytes.ofString s!"undefined label {name}"

/-- Why a text gives no code: a wrong line, or a failure to read it. -/
inductive AssemblyError where
  | atLine (line : Nat) (fault : LineFault)
  | failed (text : String)
  deriving DecidableEq, Repr

def AssemblyError.message : AssemblyError → Bytes
  | atLine line fault => Bytes.ofString s!"syntax err at line {line}: " ++ fault.text
  | failed text => Bytes.ofString text

structure Entry where
  instr : Instr
  label : Option String
  line : Nat
  deriving DecidableEq, Repr

structure Assembly where
  line : Nat := 1
  entries : Array Entry := #[]
  labels : List (String × Nat) := []

/-- The register of an operand, the code base if none is written. -/
def register (reg : Option String) : Except LineFault Reg :=
  match reg with
  | none => .ok .cb
  | some name =>
    match Reg.ofName? name with
    | some r => .ok r
    | none => .error (.unknownRegister name)

/-- An instruction with a register, and the label it refers to. Numbers relative to the primitives
are never labels. -/
def basedInstr (op : Op) (n : Word) (o : Operand) : Except LineFault (Instr × Option String) :=
  match o.value with
  | none => .error (.needsDisplacement op)
  | some v => do
    let r ← register o.reg
    match v with
    | .number d => return (.of op n r d, none)
    | .symbol name => return (.of op n r 0, if r = .pb then none else some name)

def uncountedInstr (op : Op) (o : Operand) : Except LineFault (Instr × Option String) :=
  if o.count.isSome then .error (.takesNoCount op) else basedInstr op 0 o

def instruction (op : Op) (o : Operand) : Except LineFault (Instr × Option String) :=
  match op with
  | .loadi | .storei | .jumpi | .halt =>
    if o.count.isSome || o.value.isSome || o.reg.isSome then .error (.takesNothing op)
    else .ok (.of op 0 .zr 0, none)
  | .loadl | .push | .pop =>
    match o with
    | ⟨none, some (.number d), none⟩ => .ok (.of op 0 .zr d, none)
    | _ => .error (.takesNumber op)
  | .ret =>
    match o with
    | ⟨some n, some (.number d), none⟩ => .ok (.of op n .zr d, none)
    | _ => .error .takesCountAndNumber
  | .load | .loada | .store =>
    match o with
    | ⟨none, some (.number _), some _⟩ => basedInstr op 0 o
    | _ => .error (.takesBased op)
  | .jumpif =>
    match o.count with
    | some n => basedInstr op n o
    | none => .error .takesCountAndBased
  | .call =>
    match o with
    | ⟨none, some (.symbol name), none⟩ =>
      match Prim.ofName? name with
      | some p => .ok (.prim p, none)
      | none => uncountedInstr op o
    | _ => uncountedInstr op o
  | .calli | .jump => uncountedInstr op o

def joinWords : List Bytes → Bytes
  | [] => []
  | [w] => w
  | w :: ws => w ++ ' '.toUInt8 :: joinWords ws

namespace Assembly

variable (a : Assembly)

def here : Nat := a.entries.size

def addLabel : List Bytes → Except LineFault Assembly
  | [w] =>
    let cs := w.toChars
    let name := (cs.drop 1).dropLast
    if cs.getLast? != some ')' || !isLabel name then .error .wrongLabel
    else if (a.labels.lookup (String.ofList name)).isSome then .error .duplicateLabel
    else .ok { a with labels := (String.ofList name, a.here) :: a.labels }
  | _ => .error .wrongLabel

def addInstr : List Bytes → Except LineFault Assembly
  | [] => .error .missingInstruction
  | w :: ws =>
    match Op.ofName? w.toText with
    | none => .error (.unknownOp w)
    | some op =>
      match Operand.ofWords? ws with
      | none => .error (.wrongOperand (joinWords ws))
      | some o => do
        let (instr, label) ← instruction op o
        return { a with entries := a.entries.push ⟨instr, label, a.line⟩ }

/-- Adds an instruction that may stand after its address. -/
def addNumbered : List Bytes → Except LineFault Assembly
  | [] => .ok a
  | w :: ws =>
    match (Decimal.signed? w.toChars).bind Word.ofInt? with
    | some given =>
      if given.toInt = a.here then a.addInstr ws else .error (.wrongAddress given a.here)
    | none => a.addInstr (w :: ws)

def addWords : List Bytes → Except LineFault Assembly
  | [] => .ok a
  | w :: ws => if w.head? = some '('.toUInt8 then a.addLabel (w :: ws) else a.addNumbered (w :: ws)

end Assembly

def withoutComment : Bytes → Bytes
  | [] => []
  | b :: bs =>
    if b = '/'.toUInt8 ∧ bs.head? = some '/'.toUInt8 then [] else b :: withoutComment bs

/-- The lines of a text; the last one has no line end. -/
def splitLines : Bytes → List Bytes
  | [] => [[]]
  | b :: bs =>
    if b = '\n'.toUInt8 then [] :: splitLines bs
    else
      match splitLines bs with
      | l :: ls => (b :: l) :: ls
      | [] => [[b]]

namespace Assembly

def addLine (a : Assembly) (l : Bytes) : Except LineFault Assembly :=
  a.addWords (Blank.fields (withoutComment l))

/-- Reads lines; the last one is not complete if the text ends with a failure. What was read before
a fault is kept. -/
def addLines (failure : Option String) : Assembly → List Bytes → Option AssemblyError × Assembly
  | a, [] => (none, a)
  | a, [l] =>
    match failure with
    | some text => (some (.failed text), a)
    | none =>
      match a.addLine l with
      | .ok a => (none, a)
      | .error fault => (some (.atLine a.line fault), a)
  | a, l :: ls =>
    match a.addLine l with
    | .ok b => addLines failure { b with line := b.line + 1 } ls
    | .error fault => (some (.atLine a.line fault), a)

def resolve (labels : List (String × Nat)) (e : Entry) : Except AssemblyError Instr :=
  match e.label with
  | none => .ok e.instr
  | some name =>
    match labels.lookup name with
    | some target => .ok { e.instr with d := Word.ofNat target }
    | none => .error (.atLine e.line (.undefinedLabel name))

def code (a : Assembly) : Except AssemblyError Code := do
  return (← a.entries.toList.mapM (resolve a.labels)).toArray

/-- Reads on in a text, which may end with a failure, and gives all code so far. -/
def read (a : Assembly) (text : Bytes)
    (failure : Option String) : Except AssemblyError Code × Assembly :=
  match addLines failure a (splitLines text) with
  | (some e, a) => (.error e, a)
  | (none, a) => (a.code, a)

def assemble (text : Bytes) : Except AssemblyError Code := (({} : Assembly).read text none).1

end Assembly

end MiniJava.Listing
