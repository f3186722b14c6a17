import MiniJava.Machine.Instr
/-!
Code listings: one line to an instruction, with its address in front.
-/
namespace MiniJava.Listing

def addressColumn (a : Nat) : String :=
  let digits := Decimal.digits a
  String.ofList (List.replicate (4 - digits.length) ' ' ++ digits)

def line (a : Nat) (i : Instr) : String := addressColumn a ++ "  " ++ i.text ++ "\n"

def linesFrom : Nat → List Instr → Bytes
  | _, [] => []
  | a, i :: is => Bytes.ofString (line a i) ++ linesFrom (a + 1) is

def print (code : Code) : Bytes := linesFrom 0 code.toList

end MiniJava.Listing
