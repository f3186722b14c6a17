import MiniJava.Text.Bytes
/-!
Decimal numerals: writing numbers, and reading runs of digits.
-/
namespace MiniJava.Decimal

def digit (n : Nat) : Char := Char.ofNat (48 + n)

/-- The digits of a number, the highest first and without leading zeros. -/
def digits (n : Nat) : List Char :=
  if n < 10 then [digit n] else digits (n / 10) ++ [digit (n % 10)]

/-- An integer with a sign only if it is negative. -/
def ofInt : Int → List Char
  | .ofNat n => digits n
  | .negSucc n => '-' :: digits (n + 1)

def value (ds : List Char) : Nat := ds.foldl (fun v d => 10 * v + (d.toNat - 48)) 0

def isDigit (c : Char) : Bool := '0' ≤ c && c ≤ '9'

def natural? (cs : List Char) : Option Nat :=
  if cs.isEmpty || !cs.all isDigit then none else some (value cs)

def integer? : List Char → Option Int
  | '-' :: cs => (natural? cs).map fun n => -(n : Int)
  | cs => (natural? cs).map Int.ofNat

def signed? : List Char → Option Int
  | '+' :: cs => (natural? cs).map Int.ofNat
  | cs => integer? cs

end MiniJava.Decimal
