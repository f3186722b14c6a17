import MiniJava.Syntax.Tree
/-!
Relations between types.
-/
namespace MiniJava.Ty

def text : Ty → String
  | int => "int"
  | boolean => "boolean"
  | cls name => name
  | array elem => elem.text ++ "[]"
  | void => "void"
  | null => "null"
  | error => "error"

def kindNumber : Ty → Nat
  | int => 0
  | boolean => 1
  | cls _ => 2
  | array _ => 3
  | void => 4
  | null => 5
  | error => 6

def isReference : Ty → Bool
  | cls _ => true
  | array _ => true
  | _ => false

/-- A location takes values of its own type, and null if it holds references. -/
def assignable (target source : Ty) : Bool :=
  target == source || (target.isReference && source == null)

/-- Two types that may be absent are the same if both are there and equal. -/
def same : Option Ty → Option Ty → Bool
  | some a, some b => a == b
  | _, _ => false

/-- `assignable` where types may be absent; no answer if it hangs on an absent type. -/
def assignable? : Option Ty → Option Ty → Option Bool
  | none, _ => none
  | some a, some b => some (a.assignable b)
  | some a, none => if a.isReference then none else some false

def isErrorOrAbsent : Option Ty → Bool
  | none => true
  | some t => t == error

end MiniJava.Ty
