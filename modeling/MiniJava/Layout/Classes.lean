import MiniJava.Syntax.Library
/-!
Where fields live: static ones in the lowest words of the stack, the others in the words of each
object.
-/
namespace MiniJava

/-- The word of a field, counted from the stack base or from the start of the object. -/
structure FieldPlace where
  offset : Nat
  isStatic : Bool
  deriving DecidableEq, Repr

structure ClassLayout where
  name : String
  fields : List (String × FieldPlace)
  size : Nat
  deriving DecidableEq, Repr

namespace ClassLayout

/-- Places fields in order, after `statics` static words and `size` words of the object. -/
def place (statics size : Nat) : List Field → List (String × FieldPlace)
  | [] => []
  | f :: fs =>
    if f.isStatic then (f.name, ⟨statics, true⟩) :: place (statics + 1) size fs
    else (f.name, ⟨size, false⟩) :: place statics (size + 1) fs

def of (statics : Nat) (c : ClassDecl) : ClassLayout :=
  ⟨c.name, place statics 0 c.fields, c.fields.countP (!·.isStatic)⟩

end ClassLayout

def ClassDecl.staticCount (c : ClassDecl) : Nat := c.fields.countP (·.isStatic)

abbrev ClassLayouts := List ClassLayout

namespace ClassLayouts

/-- Lays out classes in order, after `statics` static words. -/
def of (statics : Nat) : List ClassDecl → ClassLayouts
  | [] => []
  | c :: cs => .of statics c :: of (statics + c.staticCount) cs

def find? (ls : ClassLayouts) (name : String) : Option ClassLayout := List.find? (·.name == name) ls

def field? (ls : ClassLayouts) (owner name : String) : Option FieldPlace := do
  (← ls.find? owner).fields.lookup name

end ClassLayouts

def Program.classLayouts (p : Program) : ClassLayouts := .of 0 p.allClasses

def Program.staticCount (p : Program) : Nat :=
  (p.allClasses.flatMap (·.fields.filter (·.isStatic))).length

end MiniJava
