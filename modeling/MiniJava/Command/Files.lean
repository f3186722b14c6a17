import MiniJava.Text.Bytes
/-!
Trees of files and directories, and names of files in them.
-/
namespace MiniJava.Command

abbrev Path := List String

inductive FileFault where
  | missing
  | isDirectory
  | notADirectory
  | nameTooLong
  | other (text : String)
  deriving DecidableEq, Repr

def FileFault.text : FileFault → String
  | missing => "no such file or directory"
  | isDirectory => "is a directory"
  | notADirectory => "not a directory"
  | nameTooLong => "file name too long"
  | other text => text

inductive Entry where
  | file (bytes : Bytes)
  | directory
  deriving DecidableEq, Repr

/-- A directory is read as an empty source. -/
def Entry.source : Entry → Bytes
  | file bytes => bytes
  | directory => []

/-- Files with their bytes, and directories other than the root. -/
structure FileTree where
  directories : List Path
  files : List (Path × Bytes)
  deriving DecidableEq, Repr

namespace FileName

def pieces : List Char → List (List Char)
  | [] => [[]]
  | c :: cs =>
    if c = '/' then [] :: pieces cs
    else
      match pieces cs with
      | [] => [[c]]
      | p :: ps => (c :: p) :: ps

def parts (name : String) : List String :=
  ((pieces name.toList).filter (!·.isEmpty)).map String.ofList

/-- Whether a name starts at the root of the system, outside the tree. -/
def isAbsolute (name : String) : Bool := name.toList.head? == some '/'

/-- Whether a name can only be that of a directory. -/
def endsWithSlash (name : String) : Bool := name.toList.getLast? == some '/'

/-- Cuts the last dot and what follows it, unless a slash follows. -/
def stem (name : String) : String :=
  let last := name.toList.reverse.takeWhile (· != '/')
  if last.contains '.' then
    String.ofList (name.toList.take (name.toList.length - (last.takeWhile (· != '.')).length - 1))
  else name

end FileName

namespace FileTree

def ancestors (p : Path) : List Path := (List.range (p.length - 1)).map fun n => p.take (n + 1)

def ofLists (directories : List String) (files : List (String × Bytes)) : FileTree :=
  let dirs := directories.map FileName.parts
  let files := files.map fun (name, bytes) => (FileName.parts name, bytes)
  ⟨dirs ++ (dirs ++ files.map (·.1)).flatMap ancestors, files⟩

def entry? (t : FileTree) (p : Path) : Option Entry :=
  match t.files.lookup p with
  | some bytes => some (.file bytes)
  | none => if p.isEmpty || t.directories.contains p then some .directory else none

/-- Goes down from a directory; the last part need not exist. -/
def walk (t : FileTree) (here : Path) : List String → Except FileFault Path
  | [] => .ok here
  | part :: rest =>
    if part = "." then t.walk here rest
    else if part = ".." then t.walk here.dropLast rest
    else if 255 < part.utf8ByteSize then .error .nameTooLong
    else if rest.isEmpty then .ok (here ++ [part])
    else
      match t.entry? (here ++ [part]) with
      | some .directory => t.walk (here ++ [part]) rest
      | some (.file _) => .error .notADirectory
      | none => .error .missing

def locate (t : FileTree) (name : String) : Except FileFault Path :=
  if name.isEmpty || FileName.isAbsolute name then .error .missing
    else t.walk [] (FileName.parts name)

def open? (t : FileTree) (name : String) : Except FileFault Entry := do
  match t.entry? (← t.locate name), FileName.endsWithSlash name with
  | none, _ => .error .missing
  | some (.file _), true => .error .notADirectory
  | some e, _ => .ok e

/-- Gives bytes to a file, which may be new. -/
def put (t : FileTree) (p : Path) (bytes : Bytes) : FileTree :=
  { t with files := (p, bytes) :: t.files.filter (·.1 != p) }

def save (t : FileTree) (name : String) (bytes : Bytes) : Except FileFault FileTree := do
  let p ← t.locate name
  match t.entry? p, FileName.endsWithSlash name with
  | some .directory, _ => .error .isDirectory
  | _, true => .error .isDirectory
  | _, false => .ok (t.put p bytes)

/-- The files of a tree that are not in an earlier one, or not with the same bytes. -/
def changes (before after : FileTree) : List (String × Bytes) :=
  (after.files.filter fun (p, bytes) => before.files.lookup p != some bytes).map fun (p, bytes) =>
    ("/".intercalate p, bytes)

end FileTree

end MiniJava.Command
