import MiniJava.Text.Blank
import MiniJava.Text.Numeral
/-!
Input and output of the machine. An input may end with a failure, and an output may refuse writes.
-/
namespace MiniJava

/-- Bytes to be read, and the text of the failure that follows them, if any. -/
structure Input where
  bytes : Bytes
  failure : Option String := none
  deriving DecidableEq, Repr

inductive ReadFault where
  | endOfInput
  | expectedInteger
  | invalid (numeral : Bytes)
  | outOfRange (numeral : Bytes)
  | failed (text : String)
  deriving DecidableEq, Repr

def ReadFault.text : ReadFault → String
  | endOfInput => "EOF"
  | expectedInteger => "expected integer"
  | invalid numeral => s!"strconv.ParseInt: parsing \"{numeral.toText}\": invalid syntax"
  | outOfRange numeral => s!"strconv.ParseInt: parsing \"{numeral.toText}\": value out of range"
  | failed text => text

namespace Input

/-- An integer, or why there is none, and what is left of the input. -/
abbrev Reading := Except ReadFault Word × Input

def atEnd (i : Input) : ReadFault :=
  match i.failure with
  | some text => .failed text
  | none => .endOfInput

/-- The longest run of digits and underscores of a base; the numeral is then complete, unless
the input fails before it is known to end. -/
def readBody (i : Input) (sign lead : Bytes) (base : Numeral.Base) (bs : Bytes) : Reading :=
  let body := bs.takeWhile (Numeral.isBody base)
  let rest := { i with bytes := bs.dropWhile (Numeral.isBody base) }
  match rest.bytes, i.failure with
  | [], some text => (.error (.failed text), rest)
  | _, _ =>
    let parts : Numeral.Parts := ⟨sign, lead, base, body⟩
    match parts.word with
    | .ok w => (.ok w, rest)
    | .error .invalid => (.error (.invalid parts.text), rest)
    | .error .outOfRange => (.error (.outOfRange parts.text), rest)

def readUnsigned (i : Input) (sign : Bytes) : Bytes → Reading
  | [] => (.error i.atEnd, { i with bytes := [] })
  | b :: bs =>
    if b == '0'.toUInt8 then
      match bs with
      | c :: cs =>
        match Numeral.baseOfLetter? c with
        | some base => i.readBody sign [b, c] base cs
        | none => i.readBody sign [b] .octal bs
      | [] => i.readBody sign [b] .octal bs
    else if Numeral.isBody .decimal b then i.readBody sign [] .decimal (b :: bs)
    else (.error .expectedInteger, { i with bytes := b :: bs })

def readInt (i : Input) : Reading :=
  match Blank.skip i.bytes with
  | [] => (.error i.atEnd, { i with bytes := [] })
  | b :: bs =>
    if b == '+'.toUInt8 || b == '-'.toUInt8 then i.readUnsigned [b] bs
      else i.readUnsigned [] (b :: bs)

/-- The next byte, nothing at the end, or the text of a failure. -/
def readByte (i : Input) : Except String (Option UInt8 × Input) :=
  match i.bytes, i.failure with
  | b :: bs, _ => .ok (some b, { i with bytes := bs })
  | [], some text => .error text
  | [], none => .ok (none, i)

def skipLine (i : Input) : Except String Unit × Input :=
  match i.bytes.dropWhile (· != '\n'.toUInt8), i.failure with
  | _ :: bs, _ => (.ok (), { i with bytes := bs })
  | [], some text => (.error text, { i with bytes := [] })
  | [], none => (.ok (), { i with bytes := [] })

end Input

inductive Sink where
  | discard
  | accept
  | limited (size : Nat) (failure : String)
  deriving DecidableEq, Repr

structure Output where
  sink : Sink
  written : Array UInt8 := #[]
  deriving Repr

namespace Output

/-- The text of the failure if a write of `n` bytes is refused. -/
def refusal? (o : Output) (n : Nat) : Option String :=
  match o.sink with
  | .limited size failure => if o.written.size + n ≤ size then none else some failure
  | _ => none

def append (o : Output) (bs : Bytes) : Output :=
  match o.sink with
  | .discard => o
  | _ => { o with written := o.written ++ bs }

/-- Writes bytes; a write that is refused stores nothing. -/
def write (o : Output) (bs : Bytes) : Except String Output :=
  match o.refusal? bs.length with
  | some text => .error text
  | none => .ok (o.append bs)

end Output

end MiniJava
