import MiniJava.Generate.Program
import MiniJava.Proofs.Layout.Slots
/-!
A reference evaluator of resolved programs. It knows variables, static fields, objects and arrays,
but no stack, no addresses and no code: a value is a number or the name of a block, and the null
reference is the number 0.
-/
namespace MiniJava.Semantics

/-- A number, a truth value as 0 or 1, the null reference as 0, or a reference to a block of the
heap. -/
inductive Val where
  | word (w : Word)
  | loc (l : Nat)
  deriving DecidableEq, Repr

/-- The value of fresh variables, fields and elements. -/
def Val.zero : Val := .word 0

def Val.ofBool (b : Bool) : Val := .word (Word.ofBool b)

/-- The fields of an object or the elements of an array. -/
structure Block where
  kind : BlockKind
  cells : List Val
  deriving DecidableEq, Repr

/-- The static fields in the order of their numbers, the blocks in the order of their creation, and
what has been printed. -/
structure Store where
  statics : List Val
  heap : List Block
  output : Bytes

/-- What goes wrong in a program that passed the checks. -/
inductive Fault where
  | nullPointer
  | indexOutOfRange (i size : Word)
  | divisionByZero
  | negativeSize (n : Word)
  deriving DecidableEq, Repr

/-- Why an evaluation gives no result. It is stuck where the typing rules leave a phrase without
meaning. -/
inductive Halt where
  | fault (f : Fault)
  | outOfFuel
  | stuck
  deriving DecidableEq, Repr

abbrev Eval := EStateM Halt Store

def fail {α : Type} (f : Fault) : Eval α := fun σ => .error (.fault f) σ

def stuck {α : Type} : Eval α := fun σ => .error .stuck σ

def outOfFuel {α : Type} : Eval α := fun σ => .error .outOfFuel σ

/-- A thing that must be there. -/
def known {α : Type} : Option α → Eval α
  | some a => return a
  | none => stuck

def number : Val → Eval Word
  | .word w => return w
  | .loc _ => stuck

def truth (v : Val) : Eval Bool :=
  if v = .ofBool true then return true else if v = .ofBool false then return false else stuck

section Memory

/-- The block that a reference denotes, with its number. -/
def deref : Val → Eval (Nat × Block)
  | .loc l => fun σ =>
    match σ.heap[l]? with
    | some b => .ok (l, b) σ
    | none => .error .stuck σ
  | .word w => if w = 0 then fail .nullPointer else stuck

def writeCell (l i : Nat) (v : Val) : Eval Unit := fun σ =>
  .ok () { σ with heap := σ.heap.modify l fun b => { b with cells := b.cells.set i v } }

/-- Creates a block of fresh cells. -/
def allocate (kind : BlockKind) (size : Nat) : Eval Val := fun σ =>
  .ok (.loc σ.heap.length) { σ with heap := σ.heap ++ [⟨kind, List.replicate size .zero⟩] }

/-- Creates an array. -/
def allocateArray (elem : Ty) (size : Word) : Eval Val :=
  if size < 0 then fail (.negativeSize size) else allocate (.array elem) size.toInt.toNat

def readStatic (i : Nat) : Eval Val := fun σ =>
  match σ.statics[i]? with
  | some v => .ok v σ
  | none => .error .stuck σ

def writeStatic (i : Nat) (v : Val) : Eval Unit :=
  fun σ => .ok () { σ with statics := σ.statics.set i v }

/-- Field `i` of an object. -/
def readField (object : Val) (i : Nat) : Eval Val := do
  let (_, b) ← deref object
  known b.cells[i]?

def writeField (object : Val) (i : Nat) (v : Val) : Eval Unit := do
  let (l, _) ← deref object
  writeCell l i v

/-- The place of element `i` of an array of `size` elements. -/
def checkIndex (i : Word) (size : Nat) : Eval (Fin size) :=
  match i.index? size with
  | some j => return j
  | none => fail (.indexOutOfRange i (Word.ofNat size))

def readElement (array : Val) (i : Word) : Eval Val := do
  let (_, b) ← deref array
  return b.cells.get (← checkIndex i b.cells.length)

def writeElement (array : Val) (i : Word) (v : Val) : Eval Unit := do
  let (l, b) ← deref array
  writeCell l (← checkIndex i b.cells.length) v

def arrayLength (array : Val) : Eval Val := do
  let (_, b) ← deref array
  return .word (Word.ofNat b.cells.length)

/-- The bytes of a number in decimal and of a line end. -/
def printedLine (w : Word) : Bytes := (toString w.toInt ++ "\n").toUTF8.data.toList

/-- Prints a number on a line of its own. -/
def println (w : Word) : Eval Unit := fun σ => .ok () { σ with output := σ.output ++ printedLine w }

end Memory

/-- Sums, differences, products and quotients wrap to 32 bits. -/
def arithmetic (op : BinaryOp) (a b : Word) : Eval Word :=
  match op with
  | .add => return (a + b).cut32
  | .sub => return (a - b).cut32
  | .mul => return (a * b).cut32
  | .div => if b = 0 then fail .divisionByZero else return (a / b).cut32
  | .lt => return Word.ofBool (a < b)
  | .le => return Word.ofBool (a ≤ b)
  | .gt => return Word.ofBool (b < a)
  | .ge => return Word.ofBool (b ≤ a)
  | _ => stuck

/-- The result of an operator that evaluates both operands. -/
def binary (op : BinaryOp) (a b : Val) : Eval Val :=
  match op with
  | .eq => return .ofBool (a = b)
  | .ne => return .ofBool (a ≠ b)
  | _ => do return .word (← arithmetic op (← number a) (← number b))

def unary (op : UnaryOp) (v : Val) : Eval Val :=
  match op with
  | .not => do return .ofBool (!(← truth v))
  | .neg => do return .word (-(← number v))

/-- The current object, the parameters, and the local variables by their numbers in the method. -/
structure Env where
  self : Val
  params : List Val
  locals : Nat → Val

def Env.setLocal (env : Env) (k : Nat) (v : Val) : Env :=
  { env with locals := fun i => if i = k then v else env.locals i }

/-- How a statement ends: with the variables as they are then, or with a return. -/
inductive Flow where
  | next (env : Env)
  | returned (v : Option Val)

/-- What evaluation comes back to, with less fuel: calls of methods and further rounds of loops. -/
structure Reentry where
  call : MethodKey → Val → List Val → Eval (Option Val)
  loop : Nat → Env → Expr → Stmt → Eval Flow

section Phrases

variable (classes : List ClassHead)

/-- The number of an instance field by the names of its class and its own. -/
def fieldSlot? (owner name : String) : Option Nat :=
  do (← classes.find? (·.name == owner)).slot? name

def readStaticOf (owner name : String) : Eval Val :=
  do readStatic (← known (staticSlot? classes owner name))

def writeStaticOf (owner name : String) (v : Val) : Eval Unit := do
  writeStatic (← known (staticSlot? classes owner name)) v

def readFieldOf (object : Val) (owner name : String) : Eval Val := do
  readField object (← known (fieldSlot? classes owner name))

def writeFieldOf (object : Val) (owner name : String) (v : Val) : Eval Unit := do
  writeField object (← known (fieldSlot? classes owner name)) v

/-- The number of instance fields of a class. -/
def fieldCount? (name : String) : Option Nat :=
  (classes.find? (·.name == name)).map fun c => (c.fieldsOf false).length

variable (env : Env)

def ref : Ref → Eval Val
  | .this _ _ => return env.self
  | .name _ (some (.param i _)) => known env.params[i]?
  | .name _ (some (.localVar i _)) => return env.locals i
  | .name _ (some (.field owner f)) =>
    if f.isStatic then readStaticOf classes owner f.name else readFieldOf classes env.self owner
      f.name
  | .member q _ (some .length) => do arrayLength (← ref q)
  | .member q _ (some (.field owner f)) =>
    if f.isStatic then readStaticOf classes owner f.name
    else do readFieldOf classes (← ref q) owner f.name
  | _ => stuck

/-- The object on which a method is called. -/
def receiver : Ref → Eval Val
  | .member q _ _ => ref classes env q
  | _ => return env.self

variable (R : Reentry)

/-- Calls a method on arguments that have been evaluated. The object is evaluated after them, and
not at all for a static method or for printing. -/
def invoke (r : Ref) (owner : String) (m : Signature) (args : List Val) : Eval (Option Val) :=
  if Generate.isPrintln owner m then do
    println (← number (← known args.head?))
    return none
  else if m.isStatic then R.call ⟨owner, m.name⟩ .zero args
  else do
    let object ← receiver classes env r
    if object = .zero then fail .nullPointer else R.call ⟨owner, m.name⟩ object args

mutual

def expr : Expr → Eval Val
  | .unary op _ e => do unary op (← expr e)
  | .binary op _ l r => do
    let a ← expr l
    match op with
    | .and => if ← truth a then expr r else return .ofBool false
    | .or => if ← truth a then return .ofBool true else expr r
    | _ => binary op a (← expr r)
  | .ref r => ref classes env r
  | .index r i _ => do
    let array ← ref classes env r
    readElement array (← number (← expr i))
  | .call r args _ =>
    match r.meaning with
    | some (.method owner m) => do
      let values ← exprs args
      known (← invoke classes env R r owner m values)
    | _ => stuck
  | .literal l _ => return .word (Word.ofNat l.value)
  | .newObject c _ => do allocate (.object c.name) (← known (fieldCount? classes c.name))
  | .newArray elem size _ => do allocateArray elem.ty (← number (← expr size))

def exprs : List Expr → Eval (List Val)
  | [] => return []
  | e :: es => do
    let v ← expr e
    return v :: (← exprs es)

end

/-- Stores the value of an expression where a reference points; the result is the new variables. -/
def assign (value : Expr) : Ref → Eval Env
  | .name _ (some (.param i _)) => do
    return { env with params := env.params.set i (← expr classes env R value) }
  | .name _ (some (.localVar i _)) => do return env.setLocal i (← expr classes env R value)
  | .name _ (some (.field owner f)) => do
    let v ← expr classes env R value
    if f.isStatic then do writeStaticOf classes owner f.name v; return env
    else do writeFieldOf classes env.self owner f.name v; return env
  | .member q _ (some (.field owner f)) =>
    if f.isStatic then do
      writeStaticOf classes owner f.name (← expr classes env R value)
      return env
    else do
      let object ← ref classes env q
      writeFieldOf classes object owner f.name (← expr classes env R value)
      return env
  | _ => stuck

end Phrases

section Statements

variable (classes : List ClassHead) (R : Reentry)

mutual

/-- Executes a statement whose first local is the `k`-th of its method. -/
def exec (k : Nat) (env : Env) : Stmt → Eval Flow
  | .block body _ => execs k env body
  | .declare _ init _ => do return .next (env.setLocal k (← expr classes env R init))
  | .assign r value _ => do return .next (← assign classes env R value r)
  | .assignIndex r i value _ => do
    let array ← ref classes env r
    let index ← expr classes env R i
    let v ← expr classes env R value
    writeElement array (← number index) v
    return .next env
  | .call r args _ =>
    match r.meaning with
    | some (.method owner m) => do
      let values ← exprs classes env R args
      let _ ← invoke classes env R r owner m values
      return .next env
    | _ => stuck
  | .ret none _ => return .returned none
  | .ret (some value) _ => do return .returned (some (← expr classes env R value))
  | .ifThen cond t _ =>
    do if ← truth (← expr classes env R cond) then exec k env t else return .next env
  | .ifElse cond t e _ => do
    if ← truth (← expr classes env R cond) then exec k env t else exec (k + t.locals.length) env e
  | .loop cond body _ => R.loop k env cond body

def execs (k : Nat) (env : Env) : List Stmt → Eval Flow
  | [] => return .next env
  | s :: ss => do
    match ← exec k env s with
    | .next env => execs (k + s.locals.length) env ss
    | .returned v => return .returned v

end

/-- A round of a loop. -/
def round (k : Nat) (env : Env) (cond : Expr) (body : Stmt) : Eval Flow := do
  if ← truth (← expr classes env R cond) then
    match ← exec classes R k env body with
    | .next env => R.loop k env cond body
    | .returned v => return .returned v
  else return .next env

/-- Calls a method on an object, which does not matter if the method is static. -/
def call (m : Method) (self : Val) (args : List Val) : Eval (Option Val) := do
  match ← execs classes R 0 ⟨self, args, fun _ => .zero⟩ m.body with
  | .next _ => return none
  | .returned v => return v

end Statements

end MiniJava.Semantics

namespace MiniJava.Program

open Semantics

variable (p : Program)

/-- The method with a key. -/
def method? (key : MethodKey) : Option Method :=
  (p.methods.find? fun x => (⟨x.1, x.2.name⟩ : MethodKey) == key).map (·.2)

/-- Calls and loops nested at most `n` deep. -/
def reentry : (n : Nat) → Reentry
  | 0 => ⟨fun _ _ _ => outOfFuel, fun _ _ _ _ => outOfFuel⟩
  | n + 1 =>
    { call := fun key self args => do
        Semantics.call p.heads (reentry n) (← known (p.method? key)) self args
      loop := round p.heads (reentry n) }

/-- The store before the entry method is called. -/
def initialStore : Store := ⟨List.replicate (staticFields p.heads).length .zero, [], []⟩

/-- Calls the entry method with an empty array. -/
def evaluate (entry : MethodKey) (fuel : Nat) : EStateM.Result Halt Store Unit :=
  (do
    let args ← allocateArray (.cls Library.string.name) 0
    let _ ← (p.reentry fuel).call entry .zero [args]) p.initialStore

end MiniJava.Program

namespace MiniJava.Semantics

/-- What can be seen of an execution: what it prints, and whether it ends, fails or goes on for
ever. Of one that goes on for ever it is seen which texts are the beginning of what it prints. -/
inductive Behaviour where
  | ends (output : Bytes)
  | fails (f : Fault) (output : Bytes)
  | diverges (printed : Bytes → Prop)

end MiniJava.Semantics

namespace MiniJava.Program

open Semantics

/-- The behaviour of a program as it is evaluated. A program that goes on for ever uses up all
fuel. -/
def Evaluates (p : Program) (entry : MethodKey) : Behaviour → Prop
  | .ends output => ∃ fuel σ, p.evaluate entry fuel = .ok () σ ∧ σ.output = output
  | .fails f output => ∃ fuel σ, p.evaluate entry fuel = .error (.fault f) σ ∧ σ.output = output
  | .diverges printed => (∀ fuel, ∃ σ, p.evaluate entry fuel = .error .outOfFuel σ) ∧
      ∀ text, printed text ↔ ∃ fuel σ, p.evaluate entry fuel = .error .outOfFuel σ ∧
        text <+: σ.output

end MiniJava.Program
