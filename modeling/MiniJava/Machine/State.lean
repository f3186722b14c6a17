import MiniJava.Machine.Instr
import MiniJava.Machine.Channel
/-!
States of the stack machine and the elementary actions on them. The stack grows up from word 0, the
heap grows down from the end of the memory.
-/
namespace MiniJava.Machine

inductive Fault where
  | stackOverflow
  | stackUnderflow
  | addressOutOfRange (a : Word)
  | addressBetween (a : Word)
  | codeAddress
  | popBelowBase (d : Word)
  | returnBelowBase (d : Word)
  | negativeSize (n : Word)
  | heapExhausted
  | nullPointer
  | notABlock (a : Word)
  | notAnArray (a : Word)
  | indexOutOfRange (i size : Word)
  | divisionByZero
  | noInput
  | readInt (cause : ReadFault)
  | unknownOp (op : Word)
  | unknownPrim (p : Word)
  deriving DecidableEq, Repr

def Fault.text : Fault → String
  | stackOverflow => "stack overflow"
  | stackUnderflow => "stack underflow"
  | addressOutOfRange a => s!"data address {a.toInt} out of range"
  | addressBetween a => s!"data address {a.toInt} between stack top and heap top"
  | codeAddress => "code address out of range"
  | popBelowBase d => s!"pop of {d.toInt} words below stack base"
  | returnBelowBase d => s!"return discards {d.toInt} arguments below stack base"
  | negativeSize n => s!"negative allocation size {n.toInt}"
  | heapExhausted => "heap exhausted"
  | nullPointer => "null pointer dereference"
  | notABlock a => s!"address {a.toInt} is not a heap block"
  | notAnArray a => s!"address {a.toInt} is not an array"
  | indexOutOfRange i size => s!"index {i.toInt} out of range [0, {size.toInt})"
  | divisionByZero => "division by zero"
  | noInput => "no input"
  | readInt cause => s!"getint: {cause.text}"
  | unknownOp op => s!"unknown op {Op.nameOf op}"
  | unknownPrim p => s!"unknown primitive {p.toInt}"

/-- Why the machine stops before `HALT`: an error of the program, a failed read or write, or an
access outside the memory that no check has caught. -/
inductive Stop where
  | fault (f : Fault)
  | failedChannel (text : String)
  | crash
  deriving DecidableEq, Repr

def memorySize : Nat := 65536

/-- Memory, stack top, local base, object base, heap top, code pointer and channels. -/
structure State where
  data : Array Word
  st : Word
  lb : Word
  ob : Word
  ht : Word
  cp : Word
  input : Option Input
  output : Output

namespace State

def initial (input : Option Input) (sink : Sink) : State where
  data := Array.replicate memorySize 0
  st := 0
  lb := 0
  ob := 0
  ht := Word.ofNat memorySize
  cp := 0
  input
  output := { sink }

/-- The words in front of the stack top, at most `n` of them. -/
def stackWords (s : State) (n : Nat) : Option (List Word) :=
  (s.st.index? (s.data.size + 1)).map fun top => (s.data.extract (top - n) top).toList

/-- The words from the heap top on, at most `n` of them. -/
def heapWords (s : State) (n : Nat) : Option (List Word) :=
  (s.ht.index? (s.data.size + 1)).map fun top => (s.data.extract top (top + n)).toList

end State

/-- An action of the machine: it changes the state also when it stops. -/
abbrev Action := EStateM Stop State

def fault {α : Type} (f : Fault) : Action α := fun s => .error (.fault f) s

def look (f : State → Word) : Action Word := fun s => .ok (f s) s

/-- Reads a word without a check of its own. -/
def fetch (a : Word) : Action Word := fun s =>
  match a.index? s.data.size with
  | some i => .ok s.data[i] s
  | none => .error .crash s

/-- Writes a word without a check of its own. -/
def put (a v : Word) : Action Unit := fun s =>
  match a.index? s.data.size with
  | some i => .ok () { s with data := s.data.set i v }
  | none => .error .crash s

def setSt (a : Word) : Action Unit := fun s => .ok () { s with st := a }

def setHt (a : Word) : Action Unit := fun s => .ok () { s with ht := a }

def push (v : Word) : Action Unit := fun s =>
  if s.ht ≤ s.st then .error (.fault .stackOverflow) s
  else
    match s.st.index? s.data.size with
    | some i => .ok () { s with data := s.data.set i v, st := s.st + 1 }
    | none => .error .crash s

def pop : Action Word := fun s =>
  if s.st ≤ 0 then .error (.fault .stackUnderflow) s
  else
    let top := s.st - 1
    match top.index? s.data.size with
    | some i => .ok s.data[i] { s with st := top }
    | none => .error .crash { s with st := top }

/-- Pops `n` words and puts them in front of `above`, the deepest first. -/
def popOnto : Nat → List Word → Action (List Word)
  | 0, above => return above
  | n + 1, above => do popOnto n ((← pop) :: above)

def maxResults : Word := 35184372088832

/-- Pops `n` words, the deepest first in the result. -/
def popMany (n : Word) : Action (List Word) :=
  if n < 0 ∨ maxResults < n then fun s => .error .crash s else popOnto n.toInt.toNat []

def pop2 : Action (Word × Word) := do
  let b ← pop
  let a ← pop
  return (a, b)

def pop3 : Action (Word × Word × Word) := do
  let c ← pop
  let b ← pop
  let a ← pop
  return (a, b, c)

def pushAll : List Word → Action Unit
  | [] => return ()
  | v :: vs => do
    push v
    pushAll vs

def pushZeros : Nat → Action Unit
  | 0 => return ()
  | n + 1 => do
    push 0
    pushZeros n

/-- Refuses addresses outside the memory and between stack and heap. -/
def checkAddress (a : Word) : Action Unit := fun s =>
  if a < 0 ∨ Word.ofNat s.data.size ≤ a then .error (.fault (.addressOutOfRange a)) s
  else if s.st ≤ a ∧ a < s.ht then .error (.fault (.addressBetween a)) s
  else .ok () s

def load (a : Word) : Action Word := do
  checkAddress a
  fetch a

def store (a v : Word) : Action Unit := do
  checkAddress a
  put a v

/-- Fills `n` words from `a` on with zeros. -/
def clear : Nat → Word → Action Unit
  | 0, _ => return ()
  | n + 1, a => do
    put a 0
    clear n (a + 1)

/-- Takes a block from the heap: two header words with its class and size, then `size` zeros. The
result is the address of the first word after the header. -/
def allocate (cls size : Word) : Action Word := do
  if size < 0 then fault (.negativeSize size)
  let ht ← look State.ht
  let st ← look State.st
  if ht - size - 2 ≤ st then fault .heapExhausted
  let base := ht - (size + 2)
  setHt base
  put base cls
  put (base + 1) size
  clear size.toInt.toNat (base + 2)
  return base + 2

def arrayClass : Word := -2

/-- The address of word `i` of the block at `a`, which must be an array if `array` is set. -/
def element (a i : Word) (array : Bool) : Action Word := do
  if a = 0 then fault .nullPointer
  let ht ← look State.ht
  let size ← look fun s => Word.ofNat s.data.size
  if a - 2 < ht ∨ size < a then fault (.notABlock a)
  if array then
    if (← fetch (a - 2)) ≠ arrayClass then fault (.notAnArray a)
  let count ← fetch (a - 1)
  if i < 0 ∨ count ≤ i then fault (.indexOutOfRange i count)
  return a + i

def arrayLength (a : Word) : Action Word := do
  if a = 0 then fault .nullPointer
  let ht ← look State.ht
  let size ← look fun s => Word.ofNat s.data.size
  if a - 2 < ht ∨ size < a then fault (.notAnArray a)
  if (← fetch (a - 2)) ≠ arrayClass then fault (.notAnArray a)
  fetch (a - 1)

def write (bs : Bytes) : Action Unit := fun s =>
  match s.output.refusal? bs.length with
  | some text => .error (.failedChannel text) s
  | none => .ok () { s with output := s.output.append bs }

/-- Reads a byte; -1 stands for the end of the input. -/
def readByte : Action Word := fun s =>
  match s.input with
  | none => .ok (-1) s
  | some i =>
    match i.readByte with
    | .ok (some b, rest) => .ok (Word.ofNat b.toNat) { s with input := some rest }
    | .ok (none, rest) => .ok (-1) { s with input := some rest }
    | .error text => .error (.failedChannel text) s

def skipLine : Action Unit := fun s =>
  match s.input with
  | none => .ok () s
  | some i =>
    match i.skipLine with
    | (.ok (), rest) => .ok () { s with input := some rest }
    | (.error text, rest) => .error (.failedChannel text) { s with input := some rest }

def readInt : Action Word := fun s =>
  match s.input with
  | none => .error (.fault .noInput) s
  | some i =>
    match i.readInt with
    | (.ok w, rest) => .ok w { s with input := some rest }
    | (.error cause, rest) => .error (.fault (.readInt cause)) { s with input := some rest }

def atEnd : Action Bool := fun s => .ok (match s.input with
  | some ⟨_ :: _, _⟩ => false
  | _ => true) s

/-- Whether no byte can be read, or the next one ends a line. -/
def atLineEnd : Action Bool := fun s => .ok (match s.input with
  | some ⟨b :: _, _⟩ => b == '\n'.toUInt8
  | _ => true) s

end MiniJava.Machine
