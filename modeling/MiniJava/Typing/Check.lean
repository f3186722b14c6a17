import MiniJava.Syntax.Outline
import MiniJava.Typing.Ty
/-!
Types of references and expressions. A wrong phrase gets the error type, and phrases built on it
are not reported again.
-/
namespace MiniJava

inductive TypeFault where
  | noMain
  | manyMains
  | missingReturn (method : String)
  | mismatch (target source : Ty)
  | unexpected (what : String) (expected found : Ty)
  | loneDeclaration
  | missingValue (method : String) (expected : Ty)
  | valueFromVoid (method : String)
  | assignLength
  | assignThis
  | assignClass (name : String)
  | assignMethod (name : String)
  | notAnArray (found : Ty)
  | methodAsValue (name : String)
  | classAsValue (name : String)
  | notAMethod (name : String)
  | argumentCount (method : String) (expected found : Nat)
  | argument (number : Nat) (method : String) (expected found : Ty)
  | operand (op : UnaryOp) (expected found : Ty)
  | operands (op : BinaryOp) (expected left right : Ty)
  | incomparable (op : BinaryOp) (left right : Ty)
  deriving DecidableEq, Repr

def TypeFault.text : TypeFault → String
  | noMain => "no method public static void main(String[] args) found"
  | manyMains => "more than one main method"
  | missingReturn method => s!"method {method} must end with a return statement"
  | mismatch target source => s!"expected type {target.text} but found {source.text}"
  | unexpected what expected found => s!"{what} must be {expected.text} but found {found.text}"
  | loneDeclaration => "variable declaration cannot be the only statement of a branch"
  | missingValue method expected => s!"method {method} must return a value of type {expected.text}"
  | valueFromVoid method => s!"void method {method} cannot return a value"
  | assignLength => "cannot assign to the length of an array"
  | assignThis => "cannot assign to 'this'"
  | assignClass name => s!"cannot assign to class {name}"
  | assignMethod name => s!"cannot assign to method {name}"
  | notAnArray found => s!"indexed value must be an array but found {found.text}"
  | methodAsValue name => s!"method {name} used as a value"
  | classAsValue name => s!"class {name} used as a value"
  | notAMethod name => s!"{name} is not a method"
  | argumentCount method expected found =>
    s!"method {method} expects {expected} arguments but found {found}"
  | argument number method expected found =>
    s!"argument {number} of {method} must be {expected.text} but found {found.text}"
  | operand op expected found =>
    s!"operator {op.text} expects {expected.text} but found {found.text}"
  | operands op expected left right =>
    s!"operator {op.text} expects {expected.text} operands but found {left.text} and {right.text}"
  | incomparable op left right =>
    s!"operator {op.text} cannot compare {left.text} with {right.text}"

structure TypeError where
  fault : TypeFault
  span : Span
  deriving DecidableEq, Repr

def TypeError.message (e : TypeError) : Message := .about e.span ("Type error: " ++ e.fault.text)

/-- The outcome of checking a phrase: a value, the faults found and the types given, in order. -/
structure Checked (α : Type) where
  value : α
  errors : List TypeError := []
  types : List (Node × Ty) := []

namespace Checked

instance : Monad Checked where
  pure a := ⟨a, [], []⟩
  bind x f :=
    let y := f x.value
    ⟨y.value, x.errors ++ y.errors, x.types ++ y.types⟩

def report (span : Span) (fault : TypeFault) : Checked Unit := ⟨(), [⟨fault, span⟩], []⟩

/-- Reports a fault in a phrase, which thereby has the error type. -/
def wrong (span : Span) (fault : TypeFault) : Checked Ty := ⟨.error, [⟨fault, span⟩], []⟩

def record (n : Node) (t : Ty) : Checked Ty := ⟨t, [], [(n, t)]⟩

end Checked

namespace Check

open Checked

def refTy (r : Ref) : Ty := (r.meaning.map Meaning.ty).getD .error

def ref : Ref → Checked Ty
  | .this s d => record (.ref (.this s d)) (refTy (.this s d))
  | .name id d => record (.ref (.name id d)) (refTy (.name id d))
  | .member q id d => do
    let _ ← ref q
    record (.ref (.member q id d)) (refTy (.member q id d))

/-- A reference used as a value denotes no method and no class, unless it is `this`. -/
def valueRef (r : Ref) : Checked Ty := do
  let t ← ref r
  match r.meaning, r with
  | some (.method _ m), _ => wrong r.span (.methodAsValue m.name)
  | some (.cls _), .this _ _ => return t
  | some (.cls name), _ => wrong r.span (.classAsValue name)
  | _, _ => return t

/-- Only variables, parameters and fields other than the length of an array are assigned. -/
def target (r : Ref) : Checked Ty := do
  let t ← ref r
  match r.meaning, r with
  | some .length, _ => wrong r.span .assignLength
  | some (.cls _), .this _ _ => wrong r.span .assignThis
  | some (.cls name), _ => wrong r.span (.assignClass name)
  | some (.method _ m), _ => wrong r.span (.assignMethod m.name)
  | _, _ => return t

def indexed (r : Ref) : Checked Ty := do
  match ← valueRef r with
  | .error => return .error
  | .array elem => return elem
  | t => wrong r.span (.notAnArray t)

/-- A value of type `source` is stored in a location of type `target`. -/
def store (target source : Ty) (span : Span) : Checked Unit :=
  if target = .error ∨ source = .error ∨ target.assignable source then return ()
  else report span (.mismatch target source)

/-- A phrase of type `found` must have type `expected`. -/
def expect (what : String) (expected found : Ty) (span : Span) : Checked Unit :=
  if found = .error ∨
    expected = found then return () else report span (.unexpected what expected found)

/-- Arguments with their types against parameters, counted from `i`; the result is that of the
call. -/
def arguments (m : Signature) : Nat → List Variable → List (Expr × Ty) → Checked Ty
  | i, v :: vs, (e, t) :: args =>
    if t = .error then return .error
    else if v.type.ty.assignable t then arguments m (i + 1) vs args
    else wrong e.span (.argument i m.name v.type.ty t)
  | _, _, _ => return m.type.ty

def call (r : Ref) (args : List (Expr × Ty)) (span : Span) : Checked Ty :=
  match r.meaning with
  | some (.method _ m) =>
    if args.length = m.params.length then arguments m 1 m.params args
    else wrong span (.argumentCount m.name m.params.length args.length)
  | _ => wrong r.span (.notAMethod r.lastName)

def unaryTy : UnaryOp → Ty
  | .not => .boolean
  | .neg => .int

def unary (op : UnaryOp) (t : Ty) (span : Span) : Checked Ty :=
  if t = .error then return .error
  else if t = unaryTy op then return unaryTy op
  else wrong span (.operand op (unaryTy op) t)

/-- The types of the operands and of the result, for an operator that is no comparison for
equality. -/
def binaryTy? : BinaryOp → Option (Ty × Ty)
  | .or | .and => some (.boolean, .boolean)
  | .add | .sub | .mul | .div => some (.int, .int)
  | .lt | .le | .gt | .ge => some (.int, .boolean)
  | .eq | .ne => none

/-- Values of one type can be compared, and references with null. -/
def comparable (l r : Ty) : Bool :=
  l != .void && r != .void && (l.assignable r || r.assignable l)

def binary (op : BinaryOp) (l r : Ty) (span : Span) : Checked Ty :=
  if l = .error ∨ r = .error then return .error
  else
    match binaryTy? op with
    | some (operand, result) =>
      if l = operand ∧ r = operand then return result else wrong span (.operands op operand l r)
    | none => if comparable l r then return .boolean else wrong span (.incomparable op l r)

def literalTy : Literal → Ty
  | .int _ => .int
  | .bool _ => .boolean
  | .null => .null

mutual

def expr : Expr → Checked Ty
  | .unary op s e => do
    let t ← expr e
    let result ← unary op t (Expr.unary op s e).span
    record (.expr (.unary op s e)) result
  | .binary op s l r => do
    let tl ← expr l
    let tr ← expr r
    let result ← binary op tl tr (Expr.binary op s l r).span
    record (.expr (.binary op s l r)) result
  | .ref r => do
    let t ← valueRef r
    record (.expr (.ref r)) t
  | .index r i s => do
    let elem ← indexed r
    let ti ← expr i
    expect "array index" .int ti i.span
    record (.expr (.index r i s)) elem
  | .call r args s => do
    let _ ← ref r
    let typed ← exprs args
    let result ← call r typed s
    record (.expr (.call r args s)) result
  | .literal l s => record (.expr (.literal l s)) (literalTy l)
  | .newObject c s => record (.expr (.newObject c s)) (.cls c.name)
  | .newArray t size s => do
    let ts ← expr size
    expect "array size" .int ts size.span
    record (.expr (.newArray t size s)) (.array t.ty)

def exprs : List Expr → Checked (List (Expr × Ty))
  | [] => return []
  | e :: es => do
    let t ← expr e
    let rest ← exprs es
    return (e, t) :: rest

end

def branch : Stmt → Checked Unit
  | .declare _ _ s => report s .loneDeclaration
  | _ => return ()

mutual

def stmt (m : Signature) : Stmt → Checked Unit
  | .block body _ => stmts m body
  | .declare v init s => do
    let t ← expr init
    store v.type.ty t s
  | .assign r value s => do
    let location ← target r
    let t ← expr value
    store location t s
  | .assignIndex r i value s => do
    let elem ← indexed r
    let ti ← expr i
    expect "array index" .int ti i.span
    let t ← expr value
    store elem t s
  | .call r args s => do
    let _ ← ref r
    let typed ← exprs args
    let _ ← call r typed s
    return ()
  | .ret none s =>
    if m.type.ty = .void then return () else report s (.missingValue m.name m.type.ty)
  | .ret (some value) s => do
    let t ← expr value
    if m.type.ty = .void then report s (.valueFromVoid m.name) else store m.type.ty t s
  | .ifThen cond t _ => do
    let tc ← expr cond
    expect "if condition" .boolean tc cond.span
    branch t
    stmt m t
  | .ifElse cond t e _ => do
    let tc ← expr cond
    expect "if condition" .boolean tc cond.span
    branch t
    stmt m t
    branch e
    stmt m e
  | .loop cond body _ => do
    let tc ← expr cond
    expect "while condition" .boolean tc cond.span
    branch body
    stmt m body

def stmts (m : Signature) : List Stmt → Checked Unit
  | [] => return ()
  | s :: ss => do
    stmt m s
    stmts m ss

end

def ending (m : Method) : Checked Unit :=
  if m.type.ty = .void then return ()
  else
    match m.body.getLast? with
    | none => report m.span (.missingReturn m.name)
    | some (.ret _ _) => return ()
    | some s => report s.span (.missingReturn m.name)

def method (m : Method) : Checked Unit := do
  stmts m.toSignature m.body
  ending m

def methods : List Method → Checked Unit
  | [] => return ()
  | m :: ms => do
    method m
    methods ms

def classes : List ClassDecl → Checked Unit
  | [] => return ()
  | c :: cs => do
    methods c.methods
    classes cs

end Check

/-- `public static void main(String[] args)` -/
def Signature.isMain (m : Signature) : Bool :=
  m.name == "main" && !m.isPrivate && m.isStatic && m.type.ty == .void &&
    m.params.map (·.type.ty) == [.array (.cls "String")]

def Program.mains (p : Program) : List (MethodKey × Signature) :=
  p.classes.flatMap fun c =>
    (c.methods.filter (·.isMain)).map fun m => (⟨c.name, m.name⟩, m.toSignature)

/-- What checking finds: the entry method, the types of all phrases if there is one, and the
faults. -/
structure CheckResult where
  entry : Option MethodKey
  types : List (Node × Ty)
  errors : List TypeError

def Program.check (p : Program) : CheckResult :=
  match p.mains with
  | [] => ⟨none, [], [⟨.noMain, p.span⟩]⟩
  | (main, _) :: others =>
    let checked := Check.classes p.classes
    let extra := match others with
      | [] => []
      | (_, second) :: _ => [⟨.manyMains, second.span⟩]
    ⟨some main, checked.types, extra ++ checked.errors⟩

def Program.methodSite? (p : Program) (key : MethodKey) : Option Site := do
  let i ← p.classes.findIdx? (·.name == key.owner)
  let c ← p.classes[i]?
  return .method i (← c.methods.findIdx? (·.name == key.name))

def Program.typeLines (p : Program) (r : CheckResult) : List String :=
  match r.entry with
  | some _ => r.types.map fun (n, t) => s!"{Outline.nodeLabel n} : {t.text}"
  | none => p.nodes.map fun (_, _, n) => s!"{Outline.nodeLabel n} : untyped"

end MiniJava
