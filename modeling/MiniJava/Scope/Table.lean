import MiniJava.Syntax.Library
/-!
Nested scopes. Classes stand at level 0, members of the current class at level 1, parameters at
level 2 and locals of nested blocks above. A local name hides classes and members, but never
another local.
-/
namespace MiniJava

variable {δ : Type}

/-- One scope: the names declared in it, the latest first. -/
abbrev Level (δ : Type) := List (String × δ)

/-- Open scopes, the innermost first, and the local whose initializer is being read. -/
structure Scopes (δ : Type) where
  levels : List (Level δ)
  declaring : Option String := none

inductive ScopeFault where
  | noScope
  deriving DecidableEq, Repr

namespace Scopes

def new : Scopes δ := ⟨[[]], none⟩

/-- The number of the innermost scope, -1 if there is none. -/
def depth (s : Scopes δ) : Int := s.levels.length - 1

def openScope (s : Scopes δ) : Scopes δ := { s with levels := [] :: s.levels }

def closeScope (s : Scopes δ) : Except ScopeFault (Scopes δ) :=
  match s.levels with
  | [] => .error .noScope
  | _ :: outer => .ok { s with levels := outer }

/-- The scopes in which a new name must not occur: the innermost, and all others of locals. -/
def rivals : List (Level δ) → List (Level δ)
  | [] => []
  | inner :: outer => inner :: outer.take (outer.length - 2)

def isTaken (s : Scopes δ) (name : String) : Bool :=
  (rivals s.levels).any fun l => (l.lookup name).isSome

/-- Declares a name in the innermost scope; nothing if it is taken. -/
def enter (s : Scopes δ) (name : String) (d : δ) : Except ScopeFault (Option (Scopes δ)) :=
  match s.levels with
  | [] => .error .noScope
  | inner :: outer =>
    if s.isTaken name then .ok none
      else .ok (some { s with levels := ((name, d) :: inner) :: outer })

def find? (s : Scopes δ) (name : String) : Option δ := s.levels.findSome? (·.lookup name)

/-- The declaration of a name at a level counted from outside. -/
def findAt? (s : Scopes δ) (level : Nat) (name : String) : Option δ :=
  (s.levels.reverse[level]?).bind (·.lookup name)

def findClass (kind : δ → Meaning.Kind) (s : Scopes δ)
    (name : String) : Except ScopeFault (Option δ) :=
  match s.levels with
  | [] => .error .noScope
  | _ => .ok ((s.findAt? 0 name).filter (kind · == .cls))

def findMethod (kind : δ → Meaning.Kind) (s : Scopes δ) (name : String) : Option δ :=
  (s.findAt? 1 name).filter (kind · == .method)

/-- Marks a local as being declared; the empty name marks none. -/
def startDeclaring (s : Scopes δ) (name : String) : Scopes δ :=
  { s with declaring := if name = "" then none else some name }

def finishDeclaring (s : Scopes δ) : Scopes δ := { s with declaring := none }

def isBeingDeclared (s : Scopes δ) (name : String) : Bool := s.declaring == some name

end Scopes

end MiniJava
