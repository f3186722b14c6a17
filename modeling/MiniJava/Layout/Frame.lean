/-!
Frames of method calls. The arguments lie below the local base and three words of link data above
it; local variables follow in the order in which they are declared.
-/
namespace MiniJava

structure Frame where
  params : Nat
  size : Nat
  maxSize : Nat
  /-- The offsets of the local variables declared so far, in source order. -/
  locals : List Nat
  deriving DecidableEq, Repr

namespace Frame

def linkSize : Nat := 3

def entry (params : Nat) : Frame := ⟨params, linkSize, linkSize, []⟩

def declare (f : Frame) : Frame :=
  { f with
    size := f.size + 1, maxSize := max f.maxSize (f.size + 1), locals := f.locals ++ [f.size] }

def shrink (f : Frame) (size : Nat) : Frame := { f with size }

/-- Where a parameter lies, relative to the local base. -/
def paramOffset (f : Frame) (i : Nat) : Int := (i : Int) - f.params

end Frame

end MiniJava
