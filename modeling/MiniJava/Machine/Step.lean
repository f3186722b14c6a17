import MiniJava.Machine.State
/-!
Primitives, instructions and runs.
-/
namespace MiniJava.Machine

/-- Arithmetic and comparison. Sums, differences, products and quotients are cut to 32 bits. -/
def binary (p : Prim) (a b : Word) : Except Fault Word :=
  match p with
  | .and => .ok (Word.ofBool (a ≠ 0 && b ≠ 0))
  | .or => .ok (Word.ofBool (a ≠ 0 || b ≠ 0))
  | .add => .ok (a + b).cut32
  | .sub => .ok (a - b).cut32
  | .mult => .ok (a * b).cut32
  | .div => if b = 0 then .error .divisionByZero else .ok (a / b).cut32
  | .mod => if b = 0 then .error .divisionByZero else .ok (a % b)
  | .lt => .ok (Word.ofBool (a < b))
  | .le => .ok (Word.ofBool (a ≤ b))
  | .ge => .ok (Word.ofBool (b ≤ a))
  | .gt => .ok (Word.ofBool (b < a))
  | .eq => .ok (Word.ofBool (a = b))
  | _ => .ok (Word.ofBool (a ≠ b))

def mapTop (f : Word → Word) : Action Unit := do push (f (← pop))

def binaryTop (p : Prim) : Action Unit := do
  let (a, b) ← pop2
  match binary p a b with
  | .ok v => push v
  | .error f => fault f

def decimal (w : Word) : Bytes := Bytes.ofString (String.ofList (Decimal.ofInt w.toInt))

def newline : Bytes := ['\n'.toUInt8]

def primitive (p : Prim) : Action Unit :=
  match p with
  | .id => return ()
  | .not => mapTop fun v => Word.ofBool (v = 0)
  | .neg => mapTop fun v => -v
  | .succ => mapTop fun v => v + 1
  | .pred => mapTop fun v => v - 1
  | .and | .or | .add | .sub | .mult | .div | .mod | .lt | .le | .ge | .gt | .eq | .ne =>
    binaryTop p
  | .eol => do push (Word.ofBool (← atLineEnd))
  | .eof => do push (Word.ofBool (← atEnd))
  | .get => do push (← readByte)
  | .put => do write (Bytes.ofString (String.singleton (← pop).toChar))
  | .geteol => skipLine
  | .puteol => write newline
  | .getint => do push (← readInt)
  | .putint => do write (decimal (← pop))
  | .putintnl => do write (decimal (← pop) ++ newline)
  | .alloc => do push (← allocate 0 (← pop))
  | .dispose => do
    let _ ← pop2
    return ()
  | .newobj => do
    let (cls, size) ← pop2
    push (← allocate cls size)
  | .newarr => do push (← allocate arrayClass (← pop))
  | .arraylen => do push (← arrayLength (← pop))
  | .arrayref => do
    let (a, i) ← pop2
    push (← fetch (← element a i true))
  | .fieldref => do
    let (a, i) ← pop2
    push (← fetch (← element a i false))
  | .arrayupd => do
    let (a, i, v) ← pop3
    put (← element a i true) v
  | .fieldupd => do
    let (a, i, v) ← pop3
    put (← element a i false) v

/-- The value of a register; the bases of code, primitives and stack are zero. -/
def regValue (codeSize : Nat) (s : State) : Option Reg → Word
  | some .ct => Word.ofNat codeSize
  | some .pt => Word.ofNat Prim.all.length
  | some .st => s.st
  | some .lb => s.lb
  | some .hb => Word.ofNat s.data.size
  | some .ht => s.ht
  | some .ob => s.ob
  | some .cp => s.cp
  | _ => 0

def address (codeSize : Nat) (i : Instr) : Action Word :=
  look fun s => regValue codeSize s (Reg.ofNumber? i.r) + i.d

def next : Action Word := look fun s => s.cp + 1

/-- Calls the code at `target` on an object, in a new frame that saves the object base, the local
base and the address to come back to. -/
def call (target object : Word) : Action Word := do
  let base ← look State.st
  push (← look State.ob)
  push (← look State.lb)
  push (← next)
  fun s => .ok target { s with lb := base, ob := object }

/-- Leaves a frame with `n` results and drops `d` arguments. -/
def leaveFrame (n d : Word) : Action Word := do
  let results ← popMany n
  let base ← look State.lb
  let ob ← fetch base
  let lb ← fetch (base + 1)
  let back ← fetch (base + 2)
  setSt (base - d)
  if base - d < 0 then fault (.returnBelowBase d)
  pushAll results
  fun s => .ok back { s with lb, ob }

def drop (d : Word) : Action Unit := fun s =>
  if s.st < d then .error (.fault (.popBelowBase d)) s else .ok () { s with st := s.st - d }

/-- The effect of an instruction; the result is the address of the next one. -/
def effect (codeSize : Nat) (i : Instr) : Action Word :=
  match Op.ofNumber? i.op with
  | some .load => do
    push (← load (← address codeSize i))
    next
  | some .loada => do
    push (← address codeSize i)
    next
  | some .loadi => do
    push (← load (← pop))
    next
  | some .loadl => do
    push i.d
    next
  | some .store => do
    let v ← pop
    store (← address codeSize i) v
    next
  | some .storei => do
    let (v, a) ← pop2
    store a v
    next
  | some .call =>
    if i.r = Reg.pb.number then do
      match Prim.ofNumber? i.d with
      | some p => primitive p
      | none => fault (.unknownPrim i.d)
      next
    else do call (← address codeSize i) (← look State.ob)
  | some .calli => do
    let object ← pop
    call (← address codeSize i) object
  | some .ret => leaveFrame i.n i.d
  | some .push => do
    pushZeros i.d.toInt.toNat
    next
  | some .pop => do
    drop i.d
    next
  | some .jump => address codeSize i
  | some .jumpi => pop
  | some .jumpif => do
    let v ← pop
    if v = i.n then address codeSize i else next
  | some .halt => fault (.unknownOp i.op)
  | none => fault (.unknownOp i.op)

def execute (codeSize : Nat) (i : Instr) : Action Unit := do
  let target ← effect codeSize i
  fun s => .ok () { s with cp := target }

inductive Ending where
  | halted
  | stopped (cause : Stop)
  | outOfFuel
  deriving DecidableEq, Repr

/-- The state at the end of a run, the number of instructions executed and how it ends. -/
structure Run where
  state : State
  steps : Nat
  ending : Ending

/-- Runs code from a state, with at most `fuel` instructions. -/
def run (code : Code) : (fuel : Nat) → (steps : Nat) → State → Run
  | 0, steps, s => ⟨s, steps, .outOfFuel⟩
  | fuel + 1, steps, s =>
    match s.cp.index? code.size with
    | none => ⟨s, steps, .stopped (.fault .codeAddress)⟩
    | some a =>
      if (code.instr a).op = Op.halt.number then ⟨s, steps + 1, .halted⟩
      else
        match execute code.size (code.instr a) s with
        | .ok _ s => run code fuel (steps + 1) s
        | .error cause s => ⟨s, steps + 1, .stopped cause⟩

def errorText (s : State) (f : Fault) : String :=
  s!"mjam: runtime error at code address {s.cp.toInt}: {f.text}"

end MiniJava.Machine
