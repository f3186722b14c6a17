import MiniJava.Generate.Item
/-!
The code of references, expressions and statements. Code is made for a known start address, so
that jumps can name their targets.
-/
namespace MiniJava.Generate

abbrev Made := Except Fault (List Item)

/-- A place that must be there. -/
def placed {α : Type} : Option α → Except Fault α
  | some a => .ok a
  | none => .error .unplaced

/-- How an operator is carried out: by a primitive, or by leaving out the right operand when the
left one is `decided`. -/
inductive Strategy where
  | prim (p : Prim)
  | shortCircuit (decided : Word)
  deriving DecidableEq, Repr

def strategy : BinaryOp → Strategy
  | .or => .shortCircuit 1
  | .and => .shortCircuit 0
  | .eq => .prim .eq
  | .ne => .prim .ne
  | .lt => .prim .lt
  | .le => .prim .le
  | .gt => .prim .gt
  | .ge => .prim .ge
  | .add => .prim .add
  | .sub => .prim .sub
  | .mul => .prim .mult
  | .div => .prim .div

def unaryPrim : UnaryOp → Prim
  | .not => .not
  | .neg => .neg

section

variable (classes : ClassLayouts) (frame : Frame)

def ref : Ref → Made
  | .this _ _ => .ok [.this]
  | .name _ (some (.field owner f)) => do
    let place ← placed (classes.field? owner f.name)
    return [.loadField place]
  | .name _ (some (.param i _)) => .ok [.loadVariable (frame.paramOffset i)]
  | .name _ (some (.localVar i _)) => do
    let offset ← placed frame.locals[i]?
    return [.loadVariable offset]
  | .name id _ => .error (.notAValue id.name)
  | .member q _ (some .length) => do return (← ref q) ++ [.prim .arraylen]
  | .member (.this _ _) _ (some (.field owner f)) => do
    let place ← placed (classes.field? owner f.name)
    return [.loadField place]
  | .member q _ (some (.field owner f)) => do
    let place ← placed (classes.field? owner f.name)
    if place.isStatic then return [.loadField place]
    return (← ref q) ++ [.literal (Word.ofNat place.offset), .prim .fieldref]
  | .member _ _ _ => .error .unplaced

def isPrintln (owner : String) (m : Signature) : Bool :=
  owner == Library.printStream.name && m.name == Library.println.name

def receiver : Ref → Made
  | .member q _ _ => ref classes frame q
  | _ => .ok [.this]

def method (r : Ref) : Except Fault (String × Signature) :=
  match r.meaning with
  | some (.method owner m) => .ok (owner, m)
  | _ => .error .unplaced

def invoke (r : Ref) (owner : String) (m : Signature) : Made :=
  if isPrintln owner m then .ok [.prim .putintnl]
  else if m.isStatic then .ok [.call ⟨owner, m.name⟩]
  else do return (← receiver classes frame r) ++ [.callOn ⟨owner, m.name⟩]

mutual

def expr (start : Nat) : Expr → Made
  | .unary op _ e => do return (← expr start e) ++ [.prim (unaryPrim op)]
  | .binary op _ l r => do
    let left ← expr start l
    match strategy op with
    | .prim p =>
      let right ← expr (start + left.length) r
      return left ++ right ++ [.prim p]
    | .shortCircuit decided =>
      let right ← expr (start + left.length + 1) r
      let exit := start + left.length + right.length + 2
      return left ++ [.jumpIf decided exit] ++ right ++ [.jump (exit + 1), .literal decided]
  | .ref r => ref classes frame r
  | .index r i _ => do
    let array ← ref classes frame r
    let index ← expr (start + array.length) i
    return array ++ index ++ [.prim .arrayref]
  | .call r args _ => do
    let (owner, m) ← method r
    let values ← exprs start args
    return values ++ (← invoke classes frame r owner m)
  | .literal l _ => .ok [.literal (Word.ofNat l.value)]
  | .newObject c _ => do
    let layout ← placed (classes.find? c.name)
    return [.literal (-1), .literal (Word.ofNat layout.size), .create (.object c.name)]
  | .newArray elem size _ => do return (← expr start size) ++ [.create (.array elem.ty)]

def exprs (start : Nat) : List Expr → Made
  | [] => .ok []
  | e :: es => do
    let first ← expr start e
    let rest ← exprs (start + first.length) es
    return first ++ rest

end

def assign (start : Nat) (value : Expr) : Ref → Made
  | .this _ _ => .error .assignThis
  | .name _ (some (.field owner f)) => do
    let place ← placed (classes.field? owner f.name)
    return (← expr classes frame start value) ++ [.storeField place]
  | .name _ (some (.param i _)) => do
    return (← expr classes frame start value) ++ [.storeVariable (frame.paramOffset i)]
  | .name _ (some (.localVar i _)) => do
    let code ← expr classes frame start value
    let offset ← placed frame.locals[i]?
    return code ++ [.storeVariable offset]
  | .name id _ => .error (.notAssignable id.name)
  | .member (.this _ _) _ (some (.field owner f)) => do
    let place ← placed (classes.field? owner f.name)
    return (← expr classes frame start value) ++ [.storeField place]
  | .member q _ (some (.field owner f)) => do
    let place ← placed (classes.field? owner f.name)
    if place.isStatic then return (← expr classes frame start value) ++ [.storeField place]
    let object ← ref classes frame q
    let code ← expr classes frame (start + object.length + 1) value
    return object ++ [.literal (Word.ofNat place.offset)] ++ code ++ [.prim .fieldupd]
  | .member _ _ _ => .error .unplaced

def dropResult (m : Signature) : List Item := if m.type.ty = .void then [] else [.drop 1]

def dropLocals (n : Nat) : List Item := if n = 0 then [] else [.drop n]

mutual

def stmt (start : Nat) (frame : Frame) : Stmt → Except Fault (List Item × Frame)
  | .block body _ => do
    let (code, inner) ← stmts start frame body
    return (code ++ dropLocals (inner.size - frame.size), inner.shrink frame.size)
  | .declare _ init _ => do
    let code ← expr classes frame.declare start init
    return (code, frame.declare)
  | .assign r value _ => do return (← assign classes frame start value r, frame)
  | .assignIndex r i value _ => do
    let array ← ref classes frame r
    let index ← expr classes frame (start + array.length) i
    let code ← expr classes frame (start + array.length + index.length) value
    return (array ++ index ++ code ++ [.prim .arrayupd], frame)
  | .call r args _ => do
    let (owner, m) ← method r
    let values ← exprs classes frame start args
    return (values ++ (← invoke classes frame r owner m) ++ dropResult m, frame)
  | .ret none _ => .ok ([.ret 0 frame.params], frame)
  | .ret (some value) _ => do
    return ((← expr classes frame start value) ++ [.ret 1 frame.params], frame)
  | .ifThen cond t _ => do
    let test ← expr classes frame start cond
    let (code, after) ← stmt (start + test.length + 1) frame t
    return (test ++ [.jumpIf 0 (start + test.length + 1 + code.length)] ++ code, after)
  | .ifElse cond t e _ => do
    let test ← expr classes frame start cond
    let (code, between) ← stmt (start + test.length + 1) frame t
    let other := start + test.length + code.length + 2
    let (otherCode, after) ← stmt other between e
    return (test ++ [.jumpIf 0 other] ++ code ++ [.jump (other + otherCode.length)] ++ otherCode,
      after)
  | .loop cond body _ => do
    let (code, after) ← stmt (start + 1) frame body
    let test ← expr classes after (start + 1 + code.length) cond
    return ([.jump (start + 1 + code.length)] ++ code ++ test ++ [.jumpIf 1 (start + 1)], after)

def stmts (start : Nat) (frame : Frame) : List Stmt → Except Fault (List Item × Frame)
  | [] => .ok ([], frame)
  | s :: ss => do
    let (first, between) ← stmt start frame s
    let (rest, after) ← stmts (start + first.length) between ss
    return (first ++ rest, after)

end

end

end MiniJava.Generate
