import MiniJava.Machine.Instr
/-!
Operands of instructions as they are written: `(n) value[REG]`, where each part may be missing and
blanks may follow `(n)` only.
-/
namespace MiniJava.Listing

/-- A displacement: a number, or a symbol for one. A number beyond 64 bits is a symbol. -/
inductive Value where
  | number (w : Word)
  | symbol (name : String)
  deriving DecidableEq, Repr

structure Operand where
  count : Option Word
  value : Option Value
  reg : Option String
  deriving DecidableEq, Repr

def isUpper (c : Char) : Bool := 'A' ≤ c && c ≤ 'Z'

def isLabelStart (c : Char) : Bool :=
  isUpper c || ('a' ≤ c && c ≤ 'z') || c == '_' || c == '.' || c == '$' || c == ':'

def isLabelChar (c : Char) : Bool := isLabelStart c || Decimal.isDigit c

def isLabel : List Char → Bool
  | [] => false
  | c :: cs => isLabelStart c && cs.all isLabelChar

/-- A displacement in full; nothing if the text is none. -/
def value? (cs : List Char) : Option Value :=
  if isLabel cs then some (.symbol (String.ofList cs))
  else (Decimal.integer? cs).map fun n =>
    match Word.ofInt? n with
    | some w => .number w
    | none => .symbol (String.ofList cs)

/-- `value`, which may be missing. -/
def optionalValue? (cs : List Char) : Option (Option Value) :=
  if cs.isEmpty then some none else (value? cs).map some

/-- `[REG]`, which may be missing. -/
def optionalReg? : List Char → Option (Option String)
  | [] => some none
  | '[' :: cs =>
    let name := cs.takeWhile isUpper
    if name.isEmpty || cs.dropWhile isUpper != [']'] then none else some (some (String.ofList name))
  | _ => none

/-- `value[REG]`, where both may be missing. -/
def based? (count : Option Word) (cs : List Char) : Option Operand := do
  let value ← optionalValue? (cs.takeWhile (· != '['))
  let reg ← optionalReg? (cs.dropWhile (· != '['))
  return ⟨count, value, reg⟩

/-- `(n)` and what follows it. A count beyond 64 bits is the nearest word. -/
def count? : List Char → Option (Word × List Char)
  | '(' :: cs =>
    match Decimal.integer? (cs.takeWhile (· != ')')), cs.dropWhile (· != ')') with
    | some n, _ :: rest => some (Word.nearest n, rest)
    | _, _ => none
  | _ => none

/-- An operand without blanks. -/
def single? (cs : List Char) : Option Operand :=
  match cs with
  | '(' :: _ => (count? cs).bind fun (n, rest) => based? (some n) rest
  | _ => based? none cs

def Operand.ofWords? : List Bytes → Option Operand
  | [] => some ⟨none, none, none⟩
  | [w] => single? w.toChars
  | [w, v] =>
    match count? w.toChars with
    | some (n, []) => based? (some n) v.toChars
    | _ => none
  | _ => none

end MiniJava.Listing
