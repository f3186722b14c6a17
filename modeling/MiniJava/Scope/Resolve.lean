import MiniJava.Scope.Table
import MiniJava.Source.Message
import MiniJava.Syntax.Site
/-!
What the names of a program denote. Reading stops at the first name that denotes nothing or may
not be used where it stands.
-/
namespace MiniJava

inductive NamingFault where
  | duplicateClass (name : String)
  | duplicateMember (name cls : String)
  | duplicateParam (name : String)
  | duplicateVariable (name : String)
  | undeclaredClass (name : String)
  | undeclaredMethod (name : String)
  | undeclaredName (name : String)
  | instanceCall (method caller : String)
  | instanceMember (name method : String)
  | thisIsNoMethod
  | thisInStatic (method : String)
  | notAMethod (name : String)
  | ownInitializer (name : String)
  | qualifiedMethod (name : String)
  | noArrayMember (name : String)
  | notAMember (name cls : String)
  | privateMember (name cls : String)
  | throughClass (name cls : String)
  | noMembers (name : String)
  deriving DecidableEq, Repr

def NamingFault.text : NamingFault → String
  | duplicateClass name => s!"duplicate declaration of class {name}"
  | duplicateMember name cls => s!"duplicate declaration of {name} in class {cls}"
  | duplicateParam name => s!"duplicate declaration of parameter {name}"
  | duplicateVariable name => s!"duplicate declaration of variable {name}"
  | undeclaredClass name => s!"undeclared class {name}"
  | undeclaredMethod name => s!"undeclared method {name}"
  | undeclaredName name => s!"undeclared identifier {name}"
  | instanceCall method caller =>
    s!"cannot call instance method {method} from static method {caller}"
  | instanceMember name method =>
    s!"cannot reference instance member {name} from static method {method}"
  | thisIsNoMethod => "'this' is not a method"
  | thisInStatic method => s!"'this' used in static method {method}"
  | notAMethod name => s!"{name} is not a method"
  | ownInitializer name => s!"variable {name} used in its own initializer"
  | qualifiedMethod name => s!"method {name} cannot be qualified"
  | noArrayMember name => s!"arrays have no member {name}"
  | notAMember name cls => s!"{name} is not a member of class {cls}"
  | privateMember name cls => s!"{name} is private in class {cls}"
  | throughClass name cls => s!"instance member {name} referenced through class {cls}"
  | noMembers name => s!"{name} has no members"

/-- A refused name and, if its declaration is the second of a kind, that declaration. -/
structure NamingError where
  fault : NamingFault
  span : Span
  duplicate : Option Site := none
  deriving DecidableEq, Repr

namespace NamingError

def message (e : NamingError) : Message := .about e.span ("Identification error: " ++ e.fault.text)

def errorText (e : NamingError) : String :=
  s!"identification error at line {e.span.first}: {e.fault.text}"

end NamingError

namespace Resolve

def refuse {α : Type} (fault : NamingFault) (span : Span) : Except NamingError α :=
  .error ⟨fault, span, none⟩

def class? (classes : List ClassDecl) (name : String) : Option ClassDecl :=
  classes.find? (·.name == name)

/-- A written type names declared classes only. -/
def type (classes : List ClassDecl) : TypeName → Except NamingError Unit
  | .cls id =>
    match class? classes id.name with
    | some _ => .ok ()
    | none => refuse (.undeclaredClass id.name) id.span
  | .array elem _ => type classes elem
  | _ => .ok ()

/-- What is known where a method is read: all classes, and the method with its class. -/
structure Context where
  classes : List ClassDecl
  owner : String
  method : Signature
  classIndex : Nat
  methodIndex : Nat

namespace Context

variable (ctx : Context)

def classMember (q : Ref) (id : Ident) (c : ClassDecl) : Except NamingError Meaning :=
  match c.member? id.name with
  | none => refuse (.notAMember id.name c.name) id.span
  | some m =>
    if m.isPrivate && c.name != ctx.owner then refuse (.privateMember id.name c.name) id.span
    else
      match q with
      | .name qid _ =>
        if qid.name == c.name && m.isInstance then refuse (.throughClass id.name c.name) id.span
          else .ok m
      | _ => .ok m

def member (q : Ref) (d : Meaning) (id : Ident) : Except NamingError Meaning :=
  let span := q.span.through id.span
  match d with
  | .method _ m => refuse (.qualifiedMethod m.name) span
  | _ =>
    match d.ty with
    | .array _ =>
      if id.name = "length" then .ok .length else refuse (.noArrayMember id.name) id.span
    | .cls name =>
      match class? ctx.classes name with
      | some c => ctx.classMember q id c
      | none => refuse (.undeclaredClass name) span
    | _ => refuse (.noMembers d.name) span

def bareName (scopes : Scopes Meaning) (id : Ident) : Except NamingError Meaning :=
  if scopes.isBeingDeclared id.name then refuse (.ownInitializer id.name) id.span
  else
    match scopes.find? id.name with
    | none => refuse (.undeclaredName id.name) id.span
    | some d =>
      if ctx.method.isStatic && d.isInstance then refuse (.instanceMember id.name ctx.method.name)
        id.span
      else .ok d

def bareCall (scopes : Scopes Meaning) (id : Ident) : Except NamingError Meaning :=
  match scopes.findMethod Meaning.kind id.name with
  | none => refuse (.undeclaredMethod id.name) id.span
  | some d =>
    if ctx.method.isStatic && d.isInstance then refuse (.instanceCall d.name ctx.method.name)
      id.span
    else .ok d

variable (scopes : Scopes Meaning)

/-- A reference with all its meanings, and its own meaning. -/
def ref : Ref → Except NamingError (Ref × Meaning)
  | .this span _ =>
    if ctx.method.isStatic then refuse (.thisInStatic ctx.method.name) span
    else .ok (.this span (some (.cls ctx.owner)), .cls ctx.owner)
  | .name id _ => do
    let d ← ctx.bareName scopes id
    return (.name id (some d), d)
  | .member q id _ => do
    let (q, dq) ← ref q
    let d ← ctx.member q dq id
    return (.member q id (some d), d)

def callee : Ref → Except NamingError Ref
  | .name id _ => do
    let d ← ctx.bareCall scopes id
    return .name id (some d)
  | .this span _ => refuse .thisIsNoMethod span
  | .member q id d => do
    let (r, d) ← ctx.ref scopes (.member q id d)
    match d with
    | .method _ _ => return r
    | _ => refuse (.notAMethod d.name) id.span

mutual

def expr : Expr → Except NamingError Expr
  | .unary op s e => return .unary op s (← expr e)
  | .binary op s l r => do
    let l ← expr l
    let r ← expr r
    return .binary op s l r
  | .ref r => return .ref (← ctx.ref scopes r).1
  | .index r i s => do
    let (r, _) ← ctx.ref scopes r
    let i ← expr i
    return .index r i s
  | .call r args s => do
    let r ← ctx.callee scopes r
    let args ← exprs args
    return .call r args s
  | .literal l s => return .literal l s
  | .newObject c s => do
    type ctx.classes (.cls c)
    return .newObject c s
  | .newArray t size s => do
    type ctx.classes t
    return .newArray t (← expr size) s

def exprs : List Expr → Except NamingError (List Expr)
  | [] => return []
  | e :: es => do
    let e ← expr e
    let es ← exprs es
    return e :: es

end

end Context

structure State where
  scopes : Scopes Meaning
  locals : Nat

abbrev Body := EStateM NamingError State

def reading {α : Type} (f : Scopes Meaning → Except NamingError α) : Body α := fun s =>
  match f s.scopes with
  | .ok a => .ok a s
  | .error e => .error e s

def State.leave (s : State) : State :=
  { s with scopes := { s.scopes with levels := s.scopes.levels.tail } }

/-- Runs a step in a scope of its own, which is left whether the step succeeds or not. -/
def inScope {α : Type} (step : Body α) : Body α := fun s =>
  match step { s with scopes := s.scopes.openScope } with
  | .ok a t => .ok a t.leave
  | .error e t => .error e t.leave

def declareLocal (ctx : Context) (v : Variable) : Body Unit := fun s =>
  match s.scopes.enter v.name (.localVar s.locals v) with
  | .ok (some scopes) => .ok () ⟨scopes, s.locals + 1⟩
  | _ =>
    .error ⟨.duplicateVariable v.name, v.span,
      some (.localVar ctx.classIndex ctx.methodIndex s.locals)⟩ s

/-- Reads an initializer, in which the variable must not occur. -/
def initializer (ctx : Context) (v : Variable) (e : Expr) : Body Expr :=
  reading fun scopes => ctx.expr (scopes.startDeclaring v.name) e

mutual

def stmt (ctx : Context) : Stmt → Body Stmt
  | .block body s => return .block (← inScope (stmts ctx body)) s
  | .declare v init s => do
    reading fun _ => type ctx.classes v.type
    declareLocal ctx v
    return .declare v (← initializer ctx v init) s
  | .assign r value s => do
    let (r, _) ← reading fun scopes => ctx.ref scopes r
    let value ← reading fun scopes => ctx.expr scopes value
    return .assign r value s
  | .assignIndex r i value s => do
    let (r, _) ← reading fun scopes => ctx.ref scopes r
    let i ← reading fun scopes => ctx.expr scopes i
    let value ← reading fun scopes => ctx.expr scopes value
    return .assignIndex r i value s
  | .call r args s => do
    let r ← reading fun scopes => ctx.callee scopes r
    let args ← reading fun scopes => ctx.exprs scopes args
    return .call r args s
  | .ret none s => return .ret none s
  | .ret (some value) s => return .ret (some (← reading fun scopes => ctx.expr scopes value)) s
  | .ifThen cond t s => do
    let cond ← reading fun scopes => ctx.expr scopes cond
    let t ← inScope (stmt ctx t)
    return .ifThen cond t s
  | .ifElse cond t e s => do
    let cond ← reading fun scopes => ctx.expr scopes cond
    let t ← inScope (stmt ctx t)
    let e ← inScope (stmt ctx e)
    return .ifElse cond t e s
  | .loop cond body s => do
    let cond ← reading fun scopes => ctx.expr scopes cond
    let body ← inScope (stmt ctx body)
    return .loop cond body s

def stmts (ctx : Context) : List Stmt → Body (List Stmt)
  | [] => return []
  | s :: ss => do
    let s ← stmt ctx s
    let ss ← stmts ctx ss
    return s :: ss

end

/-- Declares the parameters of a method, counted from `i`. -/
def params (ctx : Context) :
    Nat → List Variable → Scopes Meaning → Except NamingError (Scopes Meaning)
  | _, [], scopes => .ok scopes
  | i, v :: vs, scopes => do
    type ctx.classes v.type
    match scopes.enter v.name (.param i v) with
    | .ok (some scopes) => params ctx (i + 1) vs scopes
    | _ => .error ⟨.duplicateParam v.name, v.span, some (.param ctx.classIndex ctx.methodIndex i)⟩

def method (ctx : Context) (scopes : Scopes Meaning) (m : Method) : Except NamingError Method := do
  type ctx.classes m.type
  let scopes ← params ctx 0 m.params scopes.openScope
  match stmts ctx m.body ⟨scopes, 0⟩ with
  | .ok body _ => return { m with body }
  | .error e _ => .error e

def enterMembers (cls : String) : List (Site × Span × Meaning) → Scopes Meaning →
    Except NamingError (Scopes Meaning)
  | [], scopes => .ok scopes
  | (site, span, d) :: ds, scopes =>
    match scopes.enter d.name d with
    | .ok (some scopes) => enterMembers cls ds scopes
    | _ => .error ⟨.duplicateMember d.name cls, span, some site⟩

/-- The fields of a class, then its methods. -/
def members (c : ClassDecl) (i : Nat) : List (Site × Span × Meaning) :=
  c.fields.mapIdx (fun k f => (.field i k, f.span, .field c.name f)) ++
  c.methods.mapIdx (fun k m => (.method i k, m.span, .method c.name m.toSignature))

def methods (ctx : Signature → Nat → Context) (scopes : Scopes Meaning) :
    Nat → List Method → Except NamingError (List Method)
  | _, [] => return []
  | k, m :: ms => do
    let m ← method (ctx m.toSignature k) scopes m
    let ms ← methods ctx scopes (k + 1) ms
    return m :: ms

def fieldTypes (classes : List ClassDecl) : List Field → Except NamingError Unit
  | [] => .ok ()
  | f :: fs => do
    type classes f.type
    fieldTypes classes fs

def classDecl (classes : List ClassDecl) (scopes : Scopes Meaning) (i : Nat) (c : ClassDecl) :
    Except NamingError ClassDecl := do
  let scopes ← enterMembers c.name (members c i) scopes.openScope
  fieldTypes classes c.fields
  return { c with methods := ← methods (fun m k => ⟨classes, c.name, m, i, k⟩) scopes 0 c.methods }

def enterClasses : Nat → List ClassDecl → Scopes Meaning → Except NamingError (Scopes Meaning)
  | _, [], scopes => .ok scopes
  | i, c :: cs, scopes =>
    match scopes.enter c.name (.cls c.name) with
    | .ok (some scopes) => enterClasses (i + 1) cs scopes
    | _ => .error ⟨.duplicateClass c.name, c.span, some (.cls i)⟩

def predefined : Scopes Meaning :=
  ⟨[(Library.classes.map fun c => (c.name, .cls c.name)).reverse], none⟩

def classDecls (classes : List ClassDecl) (scopes : Scopes Meaning) :
    Nat → List ClassDecl → Except NamingError (List ClassDecl)
  | _, [] => return []
  | i, c :: cs => do
    let c ← classDecl classes scopes i c
    let cs ← classDecls classes scopes (i + 1) cs
    return c :: cs

end Resolve

def Program.resolve (p : Program) : Except NamingError Program := do
  let scopes ← Resolve.enterClasses 0 p.classes Resolve.predefined
  return { p with classes := ← Resolve.classDecls p.allClasses scopes 0 p.classes }

end MiniJava
