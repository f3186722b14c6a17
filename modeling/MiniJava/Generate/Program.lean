import MiniJava.Generate.Phrase
import MiniJava.Syntax.Site
/-!
The code of a whole program: room for the static fields, a call of the entry method with an empty
array, then all methods.
-/
namespace MiniJava.Generate

/-- A method with its address, the frame after its body and its code. -/
structure MethodCode where
  key : MethodKey
  address : Nat
  frame : Frame
  items : List Item

/-- The return at the end of a body that does not end with one. -/
def closing (m : Method) : List Item :=
  match m.body.getLast? with
  | some (.ret _ _) => []
  | _ => [.ret 0 m.params.length]

def methodCode (classes : ClassLayouts) (start : Nat) (owner : String)
    (m : Method) : Except Fault MethodCode := do
  let (code, frame) ← stmts classes start (.entry m.params.length) m.body
  return ⟨⟨owner, m.name⟩, start, frame.shrink Frame.linkSize, code ++ closing m⟩

def methodCodes (classes : ClassLayouts) (start : Nat) :
    List (String × Method) → Except Fault (List MethodCode)
  | [] => .ok []
  | (owner, m) :: ms => do
    let first ← methodCode classes start owner m
    let rest ← methodCodes classes (start + first.items.length) ms
    return first :: rest

/-- A program with all its places, whose calls still name their methods. -/
structure Draft where
  classes : ClassLayouts
  /-- Room for the static fields and the call of the entry method. -/
  preamble : List Item
  methods : List MethodCode

namespace Draft

def items (d : Draft) : List Item := d.preamble ++ d.methods.flatMap (·.items)

def address (d : Draft) (key : MethodKey) : Option Nat :=
  (d.methods.find? (·.key == key)).map (·.address)

def link (d : Draft) : Except Fault Code := do return (← d.items.mapM (Item.link d.address)).toArray

end Draft

/-- Makes room for static fields, then calls the entry method with an empty array and stops. -/
def preamble (statics : Nat) (entry : MethodKey) : List Item :=
  List.replicate statics (.reserve 1) ++
    [.literal 0, .create (.array (.cls Library.string.name)), .call entry, .halt]

end MiniJava.Generate

namespace MiniJava

def Program.methods (p : Program) : List (String × Method) :=
  p.classes.flatMap fun c => c.methods.map fun m => (c.name, m)

namespace Program

open Generate

/-- Places and code of a program that starts at `entry`. -/
def draft (p : Program) (entry : MethodKey) : Except Fault Draft := do
  let preamble := preamble p.staticCount entry
  let methods ← methodCodes p.classLayouts preamble.length p.methods
  return ⟨p.classLayouts, preamble, methods⟩

end Program

namespace Generate.Draft

def methodLines (m : MethodCode) : List String :=
  s!"addr {m.address} args {m.frame.params} frame {m.frame.size} max {m.frame.maxSize}" ::
    (List.range m.frame.params).map (fun i => s!"offset {m.frame.paramOffset i}") ++
    m.frame.locals.map (fun o => s!"offset {o}")

def classLines (d : Draft) (c : ClassLayout) : List String :=
  s!"size {c.size}" ::
    c.fields.map (fun (_, place) => s!"offset {place.offset} static {place.isStatic}") ++
    (d.methods.filter (·.key.owner == c.name)).flatMap methodLines

def placeLines (d : Draft) (p : Program) : List String :=
  (d.classes.take p.classes.length).flatMap d.classLines

end Generate.Draft

/-- All declarations of a program with their places, if they have been given any. -/
def Program.placeReport (p : Program) (d : Option Generate.Draft) : List String :=
  let places := match d with
    | some d => d.placeLines p
    | none => p.sites.map fun _ => "none"
  (p.sites.zip places).map fun ((site, _), place) => s!"{p.describeSite site} : {place}"

end MiniJava
