/-!
Machine words: signed 64 bit integers whose arithmetic wraps.
-/
namespace MiniJava

abbrev Word := Int64

namespace Word

/-- The low 32 bits, sign extended. -/
def cut32 (w : Word) : Word := w.toInt32.toInt64

def ofBool (b : Bool) : Word := if b then 1 else 0

def ofNat (n : Nat) : Word := Int64.ofNat n

def ofInt? (n : Int) : Option Word :=
  if -0x8000000000000000 ≤ n ∧ n < 0x8000000000000000 then some (Int64.ofInt n) else none

def nearest (n : Int) : Word :=
  if n < -0x8000000000000000 then Int64.minValue
  else if 0x8000000000000000 ≤ n then Int64.maxValue
  else Int64.ofInt n

def index? (w : Word) (bound : Nat) : Option (Fin bound) :=
  if h : 0 ≤ w.toInt ∧ w.toInt.toNat < bound then some ⟨w.toInt.toNat, h.2⟩ else none

/-- The character of a word cut to 32 bits; U+FFFD if there is none. -/
def toChar (w : Word) : Char :=
  let n := w.toInt32.toInt
  if 0 ≤ n ∧ n.toNat.isValidChar then Char.ofNat n.toNat else Char.ofNat 0xfffd

end Word

end MiniJava
