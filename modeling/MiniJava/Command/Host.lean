import MiniJava.Command.Files
/-!
What commands ask of the system that they run on, and a system made of files and byte strings.
-/
namespace MiniJava.Command

/-- A system with files, an input, an output and a place for messages. -/
class Host (m : Type → Type) where
  openFile (name : String) : m (Except FileFault Entry)
  saveFile (name : String) (bytes : Bytes) : m (Except FileFault Unit)
  readInput : m Bytes
  print (bytes : Bytes) : m Unit
  warn (bytes : Bytes) : m Unit

/-- Files that are opened and saved by name. A save that fails may leave other files than before. -/
class FileSystem (φ : Type) where
  open? (files : φ) (name : String) : Except FileFault Entry
  save (files : φ) (name : String) (bytes : Bytes) : Except FileFault Unit × φ

instance : FileSystem FileTree where
  open? := FileTree.open?
  save t name bytes :=
    match t.save name bytes with
    | .ok u => (.ok (), u)
    | .error fault => (.error fault, t)

/-- Files, the input that is left, and what has been written to the output and as messages. -/
structure World (φ : Type) where
  files : φ
  input : Bytes
  output : Bytes := []
  messages : Bytes := []
  deriving DecidableEq, Repr

instance {φ : Type} [FileSystem φ] : Host (StateM (World φ)) where
  openFile name := fun w => (FileSystem.open? w.files name, w)
  saveFile name bytes := fun w =>
    let (result, files) := FileSystem.save w.files name bytes
    (result, { w with files })
  readInput := fun w => (w.input, { w with input := [] })
  print bytes := fun w => ((), { w with output := w.output ++ bytes })
  warn bytes := fun w => ((), { w with messages := w.messages ++ bytes })

end MiniJava.Command
