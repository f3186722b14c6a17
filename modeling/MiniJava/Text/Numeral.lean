import MiniJava.Machine.Word
import MiniJava.Text.Bytes
/-!
Integer numerals with an optional sign, an optional base prefix (`0b`, `0o`, `0x`, or `0` for octal)
and underscores between digits.
-/
namespace MiniJava.Numeral

inductive Base where
  | binary | octal | decimal | hexadecimal
  deriving DecidableEq, Repr

def Base.radix : Base → Nat
  | binary => 2
  | octal => 8
  | decimal => 10
  | hexadecimal => 16

/-- The value of a digit in any base up to 16. -/
def digitValue? (b : UInt8) : Option Nat :=
  let n := b.toNat
  if 48 ≤ n ∧ n ≤ 57 then some (n - 48)
  else if 97 ≤ n ∧ n ≤ 102 then some (n - 87)
  else if 65 ≤ n ∧ n ≤ 70 then some (n - 55)
  else none

def isDigit (base : Base) (b : UInt8) : Bool :=
  match digitValue? b with
  | some v => v < base.radix
  | none => false

def isUnderscore (b : UInt8) : Bool := b == '_'.toUInt8

/-- The bytes that may follow a prefix. -/
def isBody (base : Base) (b : UInt8) : Bool := isDigit base b || isUnderscore b

def baseOfLetter? (b : UInt8) : Option Base :=
  if b == 'b'.toUInt8 || b == 'B'.toUInt8 then some .binary
  else if b == 'o'.toUInt8 || b == 'O'.toUInt8 then some .octal
  else if b == 'x'.toUInt8 || b == 'X'.toUInt8 then some .hexadecimal
  else none

/-- A numeral in parts: its sign, its prefix and what follows. -/
structure Parts where
  sign : Bytes
  lead : Bytes
  base : Base
  body : Bytes

namespace Parts

def text (p : Parts) : Bytes := p.sign ++ p.lead ++ p.body

/-- Every underscore stands between digits, or between a prefix and a digit. -/
def separated : Bool → Bytes → Bool
  | _, [] => true
  | afterDigit, b :: bs =>
    if isUnderscore b then
      afterDigit && (bs.head?.any fun c => !isUnderscore c) && separated false bs
    else separated true bs

/-- The number that the digits stand for, without the sign. -/
def magnitude (p : Parts) : Nat :=
  p.body.foldl (fun v b => match digitValue? b with
    | some d => p.base.radix * v + d
    | none => v) 0

def isComplete (p : Parts) : Bool := p.lead.length < 2 || !p.body.isEmpty

def isNegative (p : Parts) : Bool := p.sign == ['-'.toUInt8]

end Parts

inductive Fault where
  | invalid
  | outOfRange
  deriving DecidableEq, Repr

/-- The word of a numeral. A number beyond 64 bits is out of range wherever underscores stand. -/
def Parts.word (p : Parts) : Except Fault Word :=
  if !p.isComplete then .error .invalid
  else if 0x10000000000000000 ≤ p.magnitude then .error .outOfRange
  else if !Parts.separated (!p.lead.isEmpty) p.body then .error .invalid
  else
    match Word.ofInt? (if p.isNegative then -p.magnitude else p.magnitude) with
    | some w => .ok w
    | none => .error .outOfRange

end MiniJava.Numeral
