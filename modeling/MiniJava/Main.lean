import MiniJava.Command.Tools
/-!
The command line program: its first argument names the command, the others are for that command.
-/
namespace MiniJava.Command

def faultOf : IO.Error → FileFault
  | .inappropriateType _ code _ => if code = 21 then .isDirectory else .notADirectory
  | .noFileOrDirectory _ _ _ => .missing
  | e => .other e.toString

def guarded {α : Type} (action : IO α) : IO (Except FileFault α) := do
  try return .ok (← action)
  catch e => return .error (faultOf e)

instance : Host IO where
  openFile name := do
    match ← guarded (IO.FS.readBinFile name) with
    | .ok bytes => return .ok (.file bytes.toList)
    | .error .isDirectory => return .ok .directory
    | .error fault => return .error fault
  saveFile name bytes := guarded (IO.FS.writeBinFile name (ByteArray.mk bytes.toArray))
  readInput := do return (← (← IO.getStdin).readBinToEnd).toList
  print bytes := do
    let out ← IO.getStdout
    out.write (ByteArray.mk bytes.toArray)
    out.flush
  warn bytes := do (← IO.getStderr).write (ByteArray.mk bytes.toArray)

end MiniJava.Command

open MiniJava.Command in
def main (args : List String) : IO UInt32 := do
  match args with
  | name :: args =>
    match Tool.ofName? name with
    | some tool => return (← tool.run 0x4000000000000000 args).toUInt32
    | none =>
      IO.eprintln ("unknown command " ++ name)
      return 2
  | [] =>
    IO.eprintln "missing command"
    return 2
