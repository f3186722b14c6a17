import MiniJava.Syntax.Library
/-!
The declarations of a program in source order, and how they are named in reports.
-/
namespace MiniJava

/-- A declaration of a program by its place: class, then member, then parameter or local. -/
inductive Site where
  | cls (c : Nat)
  | field (c f : Nat)
  | method (c m : Nat)
  | param (c m p : Nat)
  | localVar (c m v : Nat)
  deriving DecidableEq, Repr

def Site.kind : Site → Meaning.Kind
  | cls _ => .cls
  | field _ _ => .field
  | method _ _ => .method
  | param _ _ _ => .param
  | localVar _ _ _ => .var

def Method.sites (m : Method) (c i : Nat) : List (Site × String) :=
  (.method c i, m.name) ::
    m.params.mapIdx (fun p v => (.param c i p, v.name)) ++
    m.locals.mapIdx (fun k v => (.localVar c i k, v.name))

/-- The declarations of a class: the class, its fields, its methods. -/
def ClassDecl.sites (d : ClassDecl) (c : Nat) : List (Site × String) :=
  (.cls c, d.name) ::
    d.fields.mapIdx (fun f x => (.field c f, x.name)) ++
    (d.methods.mapIdx fun i m => m.sites c i).flatten

/-- All declarations in order, each with its name. -/
def Program.sites (p : Program) : List (Site × String) :=
  (p.classes.mapIdx fun c d => d.sites c).flatten

def Program.siteNumber (p : Program) (site : Site) : Nat := p.sites.findIdx (·.1 == site)

def Program.describeSite (p : Program) (site : Site) : String :=
  let name := ((p.sites.find? (·.1 == site)).map (·.2)).getD ""
  s!"{site.kind.text} {name} #{p.siteNumber site}"

/-- Where a denoted declaration stands, seen from a method; nothing for predefined ones. -/
def Program.siteOf? (p : Program) (c m : Nat) : Meaning → Option Site
  | .cls name => (p.classes.findIdx? (·.name == name)).map .cls
  | .field owner f => do
    let i ← p.classes.findIdx? (·.name == owner)
    let d ← p.classes[i]?
    return .field i (← d.fields.findIdx? (·.name == f.name))
  | .method owner s => do
    let i ← p.classes.findIdx? (·.name == owner)
    let d ← p.classes[i]?
    return .method i (← d.methods.findIdx? (·.name == s.name))
  | .param i _ => some (.param c m i)
  | .localVar i _ => some (.localVar c m i)
  | .length => none

def Program.describe (p : Program) (c m : Nat) : Option Meaning → String
  | none => "unbound"
  | some d =>
    match p.siteOf? c m d with
    | some site => p.describeSite site
    | none => s!"{d.kind.text} {d.name} std"

end MiniJava
