import MiniJava.Generate.Program
/-!
Code as it is written. A jump forward is written before its target is known and patched when the
code between is there; calls are patched when all methods have an address.
-/
namespace MiniJava.Generate

/-- The instructions written so far, and the calls among them whose targets are missing. -/
structure Emission where
  code : Code := #[]
  calls : Array (Nat × MethodKey) := #[]

abbrev Emit := StateT Emission (Except Fault)

namespace Emit

/-- The displacement of a target that is not known yet. -/
def unresolved : Word := -1

/-- Appends an instruction; the result is its address. -/
def instr (i : Instr) : Emit Nat := fun s => .ok (s.code.size, { s with code := s.code.push i })

def nextAddress : Emit Nat := fun s => .ok (s.code.size, s)

def patch (address target : Nat) : Emit Unit := fun s =>
  match s.code.patch address (Word.ofNat target) with
  | .ok code => .ok ((), { s with code })
  | .error fault => .error (.patch fault)

/-- Appends a call without its target. -/
def callOf (op : Op) (target : MethodKey) : Emit Unit := do
  let address ← instr (.of op 0 .cb unresolved)
  modify fun s => { s with calls := s.calls.push (address, target) }

def item : Item → Emit Unit
  | .instr i => do let _ ← instr i
  | .call target => callOf .call target
  | .callOn target => callOf .calli target
  | .create (.object _) => do let _ ← instr (.prim .newobj)
  | .create (.array _) => do let _ ← instr (.prim .newarr)

def items : List Item → Emit Unit
  | [] => return ()
  | i :: is => do
    item i
    items is

section

variable (classes : ClassLayouts) (frame : Frame)

mutual

def expr : Expr → Emit Unit
  | .unary op _ e => do
    expr e
    item (.prim (unaryPrim op))
  | .binary op _ l r => do
    expr l
    match strategy op with
    | .prim p => do
      expr r
      item (.prim p)
    | .shortCircuit decided => do
      let toExit ← instr (.of .jumpif decided .cb unresolved)
      expr r
      let toEnd ← instr (.of .jump 0 .cb unresolved)
      patch toExit (← nextAddress)
      item (.literal decided)
      patch toEnd (← nextAddress)
  | .ref r => do items (← ref classes frame r)
  | .index r i _ => do
    items (← ref classes frame r)
    expr i
    item (.prim .arrayref)
  | .call r args _ => do
    let (owner, m) ← method r
    exprs args
    items (← invoke classes frame r owner m)
  | .literal l _ => item (.literal (Word.ofNat l.value))
  | .newObject c _ => do
    let layout ← placed (classes.find? c.name)
    items [.literal (-1), .literal (Word.ofNat layout.size), .create (.object c.name)]
  | .newArray elem size _ => do
    expr size
    item (.create (.array elem.ty))

def exprs : List Expr → Emit Unit
  | [] => return ()
  | e :: es => do
    expr e
    exprs es

end

def assign (value : Expr) : Ref → Emit Unit
  | .this _ _ => throw .assignThis
  | .name _ (some (.field owner f)) => do
    let place ← placed (classes.field? owner f.name)
    expr classes frame value
    item (.storeField place)
  | .name _ (some (.param i _)) => do
    expr classes frame value
    item (.storeVariable (frame.paramOffset i))
  | .name _ (some (.localVar i _)) => do
    expr classes frame value
    item (.storeVariable (← placed frame.locals[i]?))
  | .name id _ => throw (.notAssignable id.name)
  | .member (.this _ _) _ (some (.field owner f)) => do
    let place ← placed (classes.field? owner f.name)
    expr classes frame value
    item (.storeField place)
  | .member q _ (some (.field owner f)) => do
    let place ← placed (classes.field? owner f.name)
    if place.isStatic then do
      expr classes frame value
      item (.storeField place)
    else do
      items (← ref classes frame q)
      item (.literal (Word.ofNat place.offset))
      expr classes frame value
      item (.prim .fieldupd)
  | .member _ _ _ => throw .unplaced

mutual

/-- Writes the code of a statement; the result is the frame after it. -/
def stmt (frame : Frame) : Stmt → Emit Frame
  | .block body _ => do
    let inner ← stmts frame body
    items (dropLocals (inner.size - frame.size))
    return inner.shrink frame.size
  | .declare _ init _ => do
    expr classes frame.declare init
    return frame.declare
  | .assign r value _ => do
    assign classes frame value r
    return frame
  | .assignIndex r i value _ => do
    items (← ref classes frame r)
    expr classes frame i
    expr classes frame value
    item (.prim .arrayupd)
    return frame
  | .call r args _ => do
    let (owner, m) ← method r
    exprs classes frame args
    items (← invoke classes frame r owner m)
    items (dropResult m)
    return frame
  | .ret none _ => do
    item (.ret 0 frame.params)
    return frame
  | .ret (some value) _ => do
    expr classes frame value
    item (.ret 1 frame.params)
    return frame
  | .ifThen cond t _ => do
    expr classes frame cond
    let toElse ← instr (.of .jumpif 0 .cb unresolved)
    let after ← stmt frame t
    patch toElse (← nextAddress)
    return after
  | .ifElse cond t e _ => do
    expr classes frame cond
    let toElse ← instr (.of .jumpif 0 .cb unresolved)
    let between ← stmt frame t
    let toEnd ← instr (.of .jump 0 .cb unresolved)
    patch toElse (← nextAddress)
    let after ← stmt between e
    patch toEnd (← nextAddress)
    return after
  | .loop cond body _ => do
    let toTest ← instr (.of .jump 0 .cb unresolved)
    let start ← nextAddress
    let after ← stmt frame body
    patch toTest (← nextAddress)
    expr classes after cond
    item (.jumpIf 1 start)
    return after

def stmts (frame : Frame) : List Stmt → Emit Frame
  | [] => return frame
  | s :: ss => do stmts (← stmt frame s) ss

end

/-- Writes the code of methods; the result is their addresses. -/
def methods : List (String × Method) → Emit (List (MethodKey × Nat))
  | [] => return []
  | (owner, m) :: ms => do
    let address ← nextAddress
    let _ ← stmts classes (.entry m.params.length) m.body
    items (closing m)
    return (⟨owner, m.name⟩, address) :: (← methods ms)

def patchCalls (addresses : List (MethodKey × Nat)) : List (Nat × MethodKey) → Emit Unit
  | [] => return ()
  | (address, target) :: calls => do
    match addresses.lookup target with
    | some a => patch address a
    | none => throw (.noAddress target.name)
    patchCalls addresses calls

end

/-- Writes the code of a program that starts at `entry`. -/
def program (p : Program) (entry : MethodKey) : Emit Unit := do
  items (preamble p.staticCount entry)
  let addresses ← methods p.classLayouts p.methods
  patchCalls addresses (← get).calls.toList

end Emit

end MiniJava.Generate

namespace MiniJava

open Generate

def Program.generate (p : Program) : (entry : Option MethodKey) → Except Fault Code
  | none => .error .noMain
  | some entry => do
    let (_, s) ← (Emit.program p entry).run {}
    return s.code

end MiniJava
