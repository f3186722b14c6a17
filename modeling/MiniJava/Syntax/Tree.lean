import MiniJava.Text.Decimal
import MiniJava.Token.Symbol
/-!
Programs as trees. A reference carries what it denotes once that is known.
-/
namespace MiniJava

structure Ident where
  name : String
  span : Span
  deriving DecidableEq, Repr

/-- Types of values; `null` is the type of the null literal and `error` that of a wrong phrase. -/
inductive Ty where
  | int
  | boolean
  | cls (name : String)
  | array (elem : Ty)
  | void
  | null
  | error
  deriving DecidableEq, Repr

inductive TypeName where
  | int (span : Span)
  | boolean (span : Span)
  | void (span : Span)
  | cls (id : Ident)
  | array (elem : TypeName) (span : Span)
  deriving DecidableEq, Repr

namespace TypeName

def ty : TypeName → Ty
  | int _ => .int
  | boolean _ => .boolean
  | void _ => .void
  | cls id => .cls id.name
  | array elem _ => .array elem.ty

def span : TypeName → Span
  | int s => s
  | boolean s => s
  | void s => s
  | cls id => id.span
  | array _ s => s

end TypeName

structure Variable where
  name : String
  type : TypeName
  span : Span
  deriving DecidableEq, Repr

structure Field where
  name : String
  type : TypeName
  span : Span
  isPrivate : Bool
  isStatic : Bool
  deriving DecidableEq, Repr

structure Signature where
  name : String
  type : TypeName
  span : Span
  isPrivate : Bool
  isStatic : Bool
  params : List Variable
  deriving DecidableEq, Repr

structure MethodKey where
  owner : String
  name : String
  deriving DecidableEq, Repr

/-- What a reference stands for. Parameters and locals are those of the enclosing method, counted
in source order. -/
inductive Meaning where
  | cls (name : String)
  | field (owner : String) (f : Field)
  | method (owner : String) (m : Signature)
  | param (index : Nat) (v : Variable)
  | localVar (index : Nat) (v : Variable)
  | length
  deriving DecidableEq, Repr

/-- A name, or a member of what another reference denotes. -/
inductive Ref where
  | this (span : Span) (meaning : Option Meaning)
  | name (id : Ident) (meaning : Option Meaning)
  | member (qualifier : Ref) (id : Ident) (meaning : Option Meaning)
  deriving DecidableEq, Repr

namespace Ref

def span : Ref → Span
  | this s _ => s
  | name id _ => id.span
  | member q id _ => q.span.through id.span

/-- What the reference denotes, if that is known. -/
def meaning : Ref → Option Meaning
  | this _ d => d
  | name _ d => d
  | member _ _ d => d

def text : Ref → String
  | this _ _ => "this"
  | name id _ => id.name
  | member q id _ => q.text ++ "." ++ id.name

def lastName : Ref → String
  | this _ _ => "this"
  | name id _ => id.name
  | member _ id _ => id.name

end Ref

inductive Literal where
  | int (digits : String)
  | bool (value : Bool)
  | null
  deriving DecidableEq, Repr

namespace Literal

def text : Literal → String
  | int digits => digits
  | bool true => "true"
  | bool false => "false"
  | null => "null"

def value : Literal → Nat
  | int digits => Decimal.value digits.toList
  | bool b => b.toNat
  | null => 0

end Literal

inductive Expr where
  | unary (op : UnaryOp) (opSpan : Span) (operand : Expr)
  | binary (op : BinaryOp) (opSpan : Span) (left right : Expr)
  | ref (r : Ref)
  | index (r : Ref) (i : Expr) (span : Span)
  | call (method : Ref) (args : List Expr) (span : Span)
  | literal (l : Literal) (span : Span)
  | newObject (cls : Ident) (span : Span)
  | newArray (elem : TypeName) (size : Expr) (span : Span)

def Expr.span : Expr → Span
  | unary _ s e => s.through e.span
  | binary _ _ l r => l.span.through r.span
  | ref r => r.span
  | index _ _ s => s
  | call _ _ s => s
  | literal _ s => s
  | newObject _ s => s
  | newArray _ _ s => s

inductive Stmt where
  | block (body : List Stmt) (span : Span)
  | declare (v : Variable) (init : Expr) (span : Span)
  | assign (target : Ref) (value : Expr) (span : Span)
  | assignIndex (array : Ref) (index value : Expr) (span : Span)
  | call (method : Ref) (args : List Expr) (span : Span)
  | ret (value : Option Expr) (span : Span)
  | ifThen (cond : Expr) (thenBranch : Stmt) (span : Span)
  | ifElse (cond : Expr) (thenBranch elseBranch : Stmt) (span : Span)
  | loop (cond : Expr) (body : Stmt) (span : Span)

def Stmt.span : Stmt → Span
  | block _ s => s
  | declare _ _ s => s
  | assign _ _ s => s
  | assignIndex _ _ _ s => s
  | call _ _ s => s
  | ret _ s => s
  | ifThen _ _ s => s
  | ifElse _ _ _ s => s
  | loop _ _ s => s

structure Method extends Signature where
  body : List Stmt

structure ClassDecl where
  id : Ident
  span : Span
  fields : List Field
  methods : List Method

def ClassDecl.name (c : ClassDecl) : String := c.id.name

structure Program where
  classes : List ClassDecl
  span : Span

mutual

/-- The local variables that a statement declares, in source order. -/
def Stmt.locals : Stmt → List Variable
  | .block body _ => Stmt.localsOf body
  | .declare v _ _ => [v]
  | .ifThen _ t _ => t.locals
  | .ifElse _ t e _ => t.locals ++ e.locals
  | .loop _ body _ => body.locals
  | _ => []

def Stmt.localsOf : List Stmt → List Variable
  | [] => []
  | s :: ss => s.locals ++ Stmt.localsOf ss

end

def Method.locals (m : Method) : List Variable := Stmt.localsOf m.body

end MiniJava
