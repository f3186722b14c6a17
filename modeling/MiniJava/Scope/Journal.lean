import MiniJava.Scope.Resolve
/-!
Names as they are resolved. A refused name is reported where it stands, and a declaration that
cannot be entered is flagged there as the second of its name.
-/
namespace MiniJava.Resolve

/-- What has been reported, and the declarations that are flagged. -/
structure Journal where
  reports : List Message := []
  flagged : List Site := []
  deriving DecidableEq, Repr

/-- The first refusal ends it; what stands in the journal stays there. -/
abbrev Logged := EStateM NamingError Journal

namespace Logged

variable {α : Type}

def report (e : NamingError) : Logged α := fun j =>
  .error e { j with reports := j.reports ++ [e.message] }

/-- Goes on with what a name denotes, or reports why it is refused. -/
def heed : Except NamingError α → Logged α
  | .ok a => return a
  | .error e => report e

def flag (site : Site) : Logged Unit := modify fun j => { j with flagged := j.flagged ++ [site] }

/-- Enters a declaration, or flags it and reports the fault. -/
def enter (name : String) (d : Meaning) (fault : NamingFault) (span : Span) (site : Site)
    (scopes : Scopes Meaning) : Logged (Scopes Meaning) :=
  match scopes.enter name d with
  | .ok (some scopes) => return scopes
  | _ => do
    flag site
    report ⟨fault, span, some site⟩

section

variable (ctx : Context) (scopes : Scopes Meaning)

def ref : Ref → Logged (Ref × Meaning)
  | .this span _ =>
    if ctx.method.isStatic then report ⟨.thisInStatic ctx.method.name, span, none⟩
    else return (.this span (some (.cls ctx.owner)), .cls ctx.owner)
  | .name id _ => do
    let d ← heed (ctx.bareName scopes id)
    return (.name id (some d), d)
  | .member q id _ => do
    let (q, dq) ← ref q
    let d ← heed (ctx.member q dq id)
    return (.member q id (some d), d)

def callee : Ref → Logged Ref
  | .name id _ => do
    let d ← heed (ctx.bareCall scopes id)
    return .name id (some d)
  | .this span _ => report ⟨.thisIsNoMethod, span, none⟩
  | .member q id d => do
    let (r, d) ← ref ctx scopes (.member q id d)
    match d with
    | .method _ _ => return r
    | _ => report ⟨.notAMethod d.name, id.span, none⟩

mutual

def expr : Expr → Logged Expr
  | .unary op s e => return .unary op s (← expr e)
  | .binary op s l r => do
    let l ← expr l
    let r ← expr r
    return .binary op s l r
  | .ref r => return .ref (← ref ctx scopes r).1
  | .index r i s => do
    let (r, _) ← ref ctx scopes r
    let i ← expr i
    return .index r i s
  | .call r args s => do
    let r ← callee ctx scopes r
    let args ← exprs args
    return .call r args s
  | .literal l s => return .literal l s
  | .newObject c s => do
    heed (type ctx.classes (.cls c))
    return .newObject c s
  | .newArray t size s => do
    heed (type ctx.classes t)
    return .newArray t (← expr size) s

def exprs : List Expr → Logged (List Expr)
  | [] => return []
  | e :: es => do
    let e ← expr e
    let es ← exprs es
    return e :: es

end

end

abbrev Body := StateT State Logged

def reading (f : Scopes Meaning → Logged α) : Body α := fun s => do return (← f s.scopes, s)

def inScope (step : Body α) : Body α := fun s => do
  let (a, t) ← step { s with scopes := s.scopes.openScope }
  return (a, t.leave)

def declareLocal (ctx : Context) (v : Variable) : Body Unit := fun s => do
  let site := .localVar ctx.classIndex ctx.methodIndex s.locals
  let scopes ← enter v.name (.localVar s.locals v) (.duplicateVariable v.name) v.span site s.scopes
  return ((), ⟨scopes, s.locals + 1⟩)

def initializer (ctx : Context) (v : Variable) (e : Expr) : Body Expr :=
  reading fun scopes => expr ctx (scopes.startDeclaring v.name) e

mutual

def stmt (ctx : Context) : Stmt → Body Stmt
  | .block body s => return .block (← inScope (stmts ctx body)) s
  | .declare v init s => do
    reading fun _ => heed (type ctx.classes v.type)
    declareLocal ctx v
    return .declare v (← initializer ctx v init) s
  | .assign r value s => do
    let (r, _) ← reading fun scopes => ref ctx scopes r
    let value ← reading fun scopes => expr ctx scopes value
    return .assign r value s
  | .assignIndex r i value s => do
    let (r, _) ← reading fun scopes => ref ctx scopes r
    let i ← reading fun scopes => expr ctx scopes i
    let value ← reading fun scopes => expr ctx scopes value
    return .assignIndex r i value s
  | .call r args s => do
    let r ← reading fun scopes => callee ctx scopes r
    let args ← reading fun scopes => exprs ctx scopes args
    return .call r args s
  | .ret none s => return .ret none s
  | .ret (some value) s => return .ret (some (← reading fun scopes => expr ctx scopes value)) s
  | .ifThen cond t s => do
    let cond ← reading fun scopes => expr ctx scopes cond
    let t ← inScope (stmt ctx t)
    return .ifThen cond t s
  | .ifElse cond t e s => do
    let cond ← reading fun scopes => expr ctx scopes cond
    let t ← inScope (stmt ctx t)
    let e ← inScope (stmt ctx e)
    return .ifElse cond t e s
  | .loop cond body s => do
    let cond ← reading fun scopes => expr ctx scopes cond
    let body ← inScope (stmt ctx body)
    return .loop cond body s

def stmts (ctx : Context) : List Stmt → Body (List Stmt)
  | [] => return []
  | s :: ss => do
    let s ← stmt ctx s
    let ss ← stmts ctx ss
    return s :: ss

end

def params (ctx : Context) : Nat → List Variable → Scopes Meaning → Logged (Scopes Meaning)
  | _, [], scopes => return scopes
  | i, v :: vs, scopes => do
    heed (type ctx.classes v.type)
    let site := .param ctx.classIndex ctx.methodIndex i
    let scopes ← enter v.name (.param i v) (.duplicateParam v.name) v.span site scopes
    params ctx (i + 1) vs scopes

def method (ctx : Context) (scopes : Scopes Meaning) (m : Method) : Logged Method := do
  heed (type ctx.classes m.type)
  let scopes ← params ctx 0 m.params scopes.openScope
  let (body, _) ← stmts ctx m.body ⟨scopes, 0⟩
  return { m with body }

def methods (ctx : Signature → Nat → Context) (scopes : Scopes Meaning) :
    Nat → List Method → Logged (List Method)
  | _, [] => return []
  | k, m :: ms => do
    let m ← method (ctx m.toSignature k) scopes m
    let ms ← methods ctx scopes (k + 1) ms
    return m :: ms

def enterMembers (cls : String) :
    List (Site × Span × Meaning) → Scopes Meaning → Logged (Scopes Meaning)
  | [], scopes => return scopes
  | (site, span, d) :: ds, scopes => do
    let scopes ← enter d.name d (.duplicateMember d.name cls) span site scopes
    enterMembers cls ds scopes

def fieldTypes (classes : List ClassDecl) : List Field → Logged Unit
  | [] => return ()
  | f :: fs => do
    heed (type classes f.type)
    fieldTypes classes fs

def classDecl (classes : List ClassDecl) (scopes : Scopes Meaning) (i : Nat) (c : ClassDecl) :
    Logged ClassDecl := do
  let scopes ← enterMembers c.name (members c i) scopes.openScope
  fieldTypes classes c.fields
  return { c with methods := ← methods (fun m k => ⟨classes, c.name, m, i, k⟩) scopes 0 c.methods }

def enterClasses : Nat → List ClassDecl → Scopes Meaning → Logged (Scopes Meaning)
  | _, [], scopes => return scopes
  | i, c :: cs, scopes => do
    let scopes ← enter c.name (.cls c.name) (.duplicateClass c.name) c.span (.cls i) scopes
    enterClasses (i + 1) cs scopes

def classDecls (classes : List ClassDecl) (scopes : Scopes Meaning) :
    Nat → List ClassDecl → Logged (List ClassDecl)
  | _, [] => return []
  | i, c :: cs => do
    let c ← classDecl classes scopes i c
    let cs ← classDecls classes scopes (i + 1) cs
    return c :: cs

end Logged

end MiniJava.Resolve

namespace MiniJava

open Resolve in
/-- Resolves the names of a program and keeps a journal of it. -/
def Program.identify (p : Program) : Logged Program := do
  let scopes ← Logged.enterClasses 0 p.classes predefined
  return { p with classes := ← Logged.classDecls p.allClasses scopes 0 p.classes }

end MiniJava
