import MiniJava.Machine.Word
import MiniJava.Text.Decimal
/-!
Instructions of the stack machine. An instruction is four words; numbers that name no operation,
register or primitive are kept as they are.
-/
namespace MiniJava

inductive Op where
  | load | loada | loadi | loadl | store | storei | call | calli | ret | push | pop
  | jump | jumpi | jumpif | halt
  deriving DecidableEq, Repr

inductive Reg where
  | zr | cb | ct | pb | pt | sb | st | lb | hb | ht | ob | cp
  deriving DecidableEq, Repr

inductive Prim where
  | id | not | and | or | succ | pred | neg | add | sub | mult | div | mod | lt | le | ge | gt |
      eq | ne
  | eol | eof | get | put | geteol | puteol | getint | putint | putintnl | alloc | dispose | newobj
  | newarr | arrayref | arraylen | arrayupd | fieldref | fieldupd
  deriving DecidableEq, Repr

def numbered? {α : Type} (all : List α) (w : Word) : Option α := (w.index? all.length).map all.get

namespace Op

def name : Op → String
  | load => "LOAD"
  | loada => "LOADA"
  | loadi => "LOADI"
  | loadl => "LOADL"
  | store => "STORE"
  | storei => "STOREI"
  | call => "CALL"
  | calli => "CALLI"
  | ret => "RETURN"
  | push => "PUSH"
  | pop => "POP"
  | jump => "JUMP"
  | jumpi => "JUMPI"
  | jumpif => "JUMPIF"
  | halt => "HALT"

def all : List Op :=
  [load, loada, loadi, loadl, store, storei, call, calli, ret, push, pop, jump, jumpi, jumpif, halt]

def number (op : Op) : Word := Word.ofNat (all.idxOf op)

def ofNumber? (w : Word) : Option Op := numbered? all w

def ofName? (s : String) : Option Op := all.find? (·.name == s)

def nameOf (w : Word) : String :=
  match ofNumber? w with
  | some op => op.name
  | none => s!"OP({w.toInt})"

end Op

namespace Reg

def name : Reg → String
  | zr => "ZR"
  | cb => "CB"
  | ct => "CT"
  | pb => "PB"
  | pt => "PT"
  | sb => "SB"
  | st => "ST"
  | lb => "LB"
  | hb => "HB"
  | ht => "HT"
  | ob => "OB"
  | cp => "CP"

def all : List Reg := [zr, cb, ct, pb, pt, sb, st, lb, hb, ht, ob, cp]

def number (r : Reg) : Word := Word.ofNat (all.idxOf r)

def ofNumber? (w : Word) : Option Reg := numbered? all w

def ofName? (s : String) : Option Reg := all.find? (·.name == s)

def nameOf (w : Word) : String :=
  match ofNumber? w with
  | some r => r.name
  | none => s!"R({w.toInt})"

end Reg

namespace Prim

def name : Prim → String
  | id => "id"
  | not => "not"
  | and => "and"
  | or => "or"
  | succ => "succ"
  | pred => "pred"
  | neg => "neg"
  | add => "add"
  | sub => "sub"
  | mult => "mult"
  | div => "div"
  | mod => "mod"
  | lt => "lt"
  | le => "le"
  | ge => "ge"
  | gt => "gt"
  | eq => "eq"
  | ne => "ne"
  | eol => "eol"
  | eof => "eof"
  | get => "get"
  | put => "put"
  | geteol => "geteol"
  | puteol => "puteol"
  | getint => "getint"
  | putint => "putint"
  | putintnl => "putintnl"
  | alloc => "alloc"
  | dispose => "dispose"
  | newobj => "newobj"
  | newarr => "newarr"
  | arrayref => "arrayref"
  | arraylen => "arraylen"
  | arrayupd => "arrayupd"
  | fieldref => "fieldref"
  | fieldupd => "fieldupd"

def all : List Prim :=
  [id, not, and, or, succ, pred, neg, add, sub, mult, div, mod, lt, le, ge, gt, eq, ne, eol, eof,
    get, put,
   geteol, puteol, getint, putint, putintnl, alloc, dispose, newobj, newarr, arrayref, arraylen,
   arrayupd,
   fieldref, fieldupd]

def number (p : Prim) : Word := Word.ofNat (all.idxOf p)

def ofNumber? (w : Word) : Option Prim := numbered? all w

def ofName? (s : String) : Option Prim := all.find? (·.name == s)

def nameOf (w : Word) : String :=
  match ofNumber? w with
  | some p => p.name
  | none => s!"prim({w.toInt})"

end Prim

/-- An operation, a count, a register and a displacement. -/
structure Instr where
  op : Word
  n : Word
  r : Word
  d : Word
  deriving DecidableEq, Repr

namespace Instr

def of (op : Op) (n : Word) (r : Reg) (d : Word) : Instr := ⟨op.number, n, r.number, d⟩

def prim (p : Prim) : Instr := of .call 0 .pb p.number

def numeral (w : Word) : String := String.ofList (Decimal.ofInt w.toInt)

/-- An operation's name, filled with blanks up to the operand column. -/
def opColumn (name : String) : String :=
  name ++ String.ofList (List.replicate (7 - name.length) ' ')

/-- The instruction as it is listed; words that the operation does not use are not shown. -/
def text (i : Instr) : String :=
  let head := opColumn (Op.nameOf i.op)
  let based := head ++ numeral i.d ++ "[" ++ Reg.nameOf i.r ++ "]"
  match Op.ofNumber? i.op with
  | some .loadi | some .storei | some .jumpi | some .halt => Op.nameOf i.op
  | some .loadl | some .push | some .pop => head ++ numeral i.d
  | some .ret => head ++ "(" ++ numeral i.n ++ ") " ++ numeral i.d
  | some .jumpif =>
    head ++ "(" ++ numeral i.n ++ ") " ++ numeral i.d ++ "[" ++ Reg.nameOf i.r ++ "]"
  | some .call => if i.r = Reg.pb.number then head ++ Prim.nameOf i.d else based
  | _ => based

end Instr

abbrev Code := Array Instr

namespace Code

def instr (code : Code) (a : Fin code.size) : Instr := code[a]

/-- An attempt to change an instruction that is not there. -/
structure PatchFault where
  address : Int
  size : Nat
  deriving DecidableEq, Repr

def PatchFault.message (f : PatchFault) : String :=
  s!"mjam: patch of address {f.address} outside code store of size {f.size}"

def patch (code : Code) (address : Int) (d : Word) : Except PatchFault Code :=
  if h : 0 ≤ address ∧ address.toNat < code.size then
    .ok (code.set address.toNat { code[address.toNat] with d } h.2)
  else .error ⟨address, code.size⟩

end Code

end MiniJava
