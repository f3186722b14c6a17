import MiniJava.Syntax.Tree
/-!
The predefined classes: `System.out.println(int)` prints a number, and `String` is the element
type of the entry method's parameter.
-/
namespace MiniJava.Library

def nowhere : Span := .line 0

def className (name : String) : TypeName := .cls ⟨name, nowhere⟩

def out : Field :=
  { name := "out", type := className "_PrintStream", span := nowhere,
    isPrivate := false, isStatic := true }

def println : Method :=
  { name := "println", type := .void nowhere, span := nowhere,
    isPrivate := false, isStatic := false,
    params := [⟨"n", .int nowhere, nowhere⟩], body := [] }

def system : ClassDecl := ⟨⟨"System", nowhere⟩, nowhere, [out], []⟩

def printStream : ClassDecl := ⟨⟨"_PrintStream", nowhere⟩, nowhere, [], [println]⟩

def string : ClassDecl := ⟨⟨"String", nowhere⟩, nowhere, [], []⟩

def classes : List ClassDecl := [system, printStream, string]

end MiniJava.Library

namespace MiniJava

/-- The classes of a program, then the predefined ones. -/
def Program.allClasses (p : Program) : List ClassDecl := p.classes ++ Library.classes

/-- The member with a name: fields are looked up first. -/
def ClassDecl.member? (c : ClassDecl) (name : String) : Option Meaning :=
  match c.fields.find? (·.name == name) with
  | some f => some (.field c.name f)
  | none => (c.methods.find? (·.name == name)).map fun m => .method c.name m.toSignature

namespace Meaning

inductive Kind where
  | cls | field | method | param | var
  deriving DecidableEq, Repr

def Kind.text : Kind → String
  | cls => "class"
  | field => "field"
  | method => "method"
  | param => "param"
  | var => "var"

def kind : Meaning → Kind
  | cls _ => .cls
  | field _ _ => .field
  | method _ _ => .method
  | param _ _ => .param
  | localVar _ _ => .var
  | length => .field

def name : Meaning → String
  | cls name => name
  | field _ f => f.name
  | method _ m => m.name
  | param _ v => v.name
  | localVar _ v => v.name
  | length => "length"

def ty : Meaning → Ty
  | cls name => .cls name
  | field _ f => f.type.ty
  | method _ m => m.type.ty
  | param _ v => v.type.ty
  | localVar _ v => v.type.ty
  | length => .int

def isPrivate : Meaning → Bool
  | field _ f => f.isPrivate
  | method _ m => m.isPrivate
  | _ => false

/-- Whether a member belongs to each object of its class. -/
def isInstance : Meaning → Bool
  | field _ f => !f.isStatic
  | method _ m => !m.isStatic
  | length => true
  | _ => false

end Meaning

end MiniJava
