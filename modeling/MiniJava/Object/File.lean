import MiniJava.Machine.Instr
import MiniJava.Text.Bytes
/-!
Object files: four words to an instruction, each as its low 32 bits with the highest byte first.
-/
namespace MiniJava.Object

def wordBytes (w : Word) : Bytes :=
  let n := w.toInt32.toUInt32
  [(n >>> 24).toUInt8, (n >>> 16).toUInt8, (n >>> 8).toUInt8, n.toUInt8]

def wordOf (a b c d : UInt8) : Word :=
  let n := a.toUInt32 <<< 24 ||| b.toUInt32 <<< 16 ||| c.toUInt32 <<< 8 ||| d.toUInt32
  n.toInt32.toInt64

def instrBytes (i : Instr) : Bytes :=
  wordBytes i.op ++ wordBytes i.n ++ wordBytes i.r ++ wordBytes i.d

def write (is : List Instr) : Bytes := is.flatMap instrBytes

/-- A file that ends inside an instruction, after so many whole ones. -/
structure Truncated where
  instructions : Nat
  deriving DecidableEq, Repr

def Truncated.message (t : Truncated) : String :=
  s!"mjam: truncated object file after {t.instructions} instructions"

def readFrom (n : Nat) : Bytes → Except Truncated (List Instr)
  | [] => .ok []
  | a :: b :: c :: d :: e :: f :: g :: h :: i :: j :: k :: l :: m :: o :: p :: q :: rest => do
    let is ← readFrom (n + 1) rest
    return ⟨wordOf a b c d, wordOf e f g h, wordOf i j k l, wordOf m o p q⟩ :: is
  | _ => .error ⟨n⟩

def read (bs : Bytes) : Except Truncated (List Instr) := readFrom 0 bs

end MiniJava.Object
