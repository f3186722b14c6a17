import MiniJava.Scope.Resolve
/-!
Where a phrase stands and which declarations its names may denote there. A phrase is bound if every
reference in it, qualifiers and call targets included, denotes a declaration that can be seen from
its place.
-/
namespace MiniJava

/-- A class without the bodies of its methods. -/
structure ClassHead where
  name : String
  fields : List Field
  methods : List Signature
  deriving DecidableEq, Repr

def ClassDecl.head (c : ClassDecl) : ClassHead := ⟨c.name, c.fields, c.methods.map (·.toSignature)⟩

/-- The heads of all classes, the predefined ones included. -/
def Program.heads (p : Program) : List ClassHead := p.allClasses.map ClassDecl.head

/-- A reference stands for a value if it denotes no method and, unless it is `this`, no class. -/
def Ref.isValue (r : Ref) : Bool :=
  match r.meaning, r with
  | none, _ => false
  | some (.method _ _), _ => false
  | some (.cls _), .this _ _ => true
  | some (.cls _), _ => false
  | some _, _ => true

/-- A local variable by its number in the method, with its declaration. -/
abbrev Local := Nat × Variable

/-- The locals that can be seen after a statement whose first local is the `k`-th of its method. -/
def Stmt.seen (k : Nat) (vars : List Local) : Stmt → List Local
  | .declare v _ _ => vars ++ [(k, v)]
  | _ => vars

/-- The locals that the initializer of `v` may use. The mark that keeps `v` itself out is its name,
and the empty name marks nothing. -/
def Variable.seenByInit (k : Nat) (vars : List Local) (v : Variable) : List Local :=
  if v.name = "" then vars ++ [(k, v)] else vars

/-- The classes of a program, and the method of one of them in which a phrase stands. -/
structure Setting where
  classes : List ClassHead
  owner : String
  method : Signature

namespace Setting

variable (E : Setting)

def HasClass (name : String) : Prop := ∃ c ∈ E.classes, c.name = name

def HasField (owner : String) (f : Field) : Prop := ∃ c ∈ E.classes, c.name = owner ∧ f ∈ c.fields

def HasMethod (owner : String) (m : Signature) : Prop :=
  ∃ c ∈ E.classes, c.name = owner ∧ m ∈ c.methods

/-- What a reference denotes, seen from a place where the locals `vars` are in scope. An instance
member is never selected from a class by its name, and never named alone in a static method. -/
inductive Binds (vars : List Local) : Ref → Meaning → Prop
  | this {s} : E.method.isStatic = false → Binds vars (.this s (some (.cls E.owner))) (.cls E.owner)
  | cls {id} : E.HasClass id.name → Binds vars (.name id (some (.cls id.name))) (.cls id.name)
  | field {id f} : E.HasField E.owner f → (f.isStatic = false → E.method.isStatic = false) →
      Binds vars (.name id (some (.field E.owner f))) (.field E.owner f)
  | method {id m} : E.HasMethod E.owner m → (m.isStatic = false → E.method.isStatic = false) →
      Binds vars (.name id (some (.method E.owner m))) (.method E.owner m)
  | param {id i v} : E.method.params[i]? = some v →
      Binds vars (.name id (some (.param i v))) (.param i v)
  | localVar {id i v} : (i, v) ∈ vars → Binds vars (.name id (some (.localVar i v))) (.localVar i v)
  | length {q dq id t} : Binds vars q dq → dq.kind ≠ .method → dq.ty = .array t →
      Binds vars (.member q id (some .length)) .length
  | memberField {q dq id c f} : Binds vars q dq → dq.kind ≠ .method → dq.ty = .cls c →
      E.HasField c f →
      (f.isStatic = false → q.isValue = true) →
        Binds vars (.member q id (some (.field c f))) (.field c f)
  | memberMethod {q dq id c m} : Binds vars q dq → dq.kind ≠ .method → dq.ty = .cls c →
      E.HasMethod c m →
      (m.isStatic = false → q.isValue = true) →
        Binds vars (.member q id (some (.method c m))) (.method c m)

def RefBound (vars : List Local) (r : Ref) : Prop := ∃ d, E.Binds vars r d

/-- A reference in call position denotes a method. -/
def CallBound (vars : List Local) (r : Ref) : Prop := ∃ owner m, E.Binds vars r (.method owner m)

mutual

def ExprBound (vars : List Local) : Expr → Prop
  | .unary _ _ e => ExprBound vars e
  | .binary _ _ l r => ExprBound vars l ∧ ExprBound vars r
  | .ref r => E.RefBound vars r
  | .index r i _ => E.RefBound vars r ∧ ExprBound vars i
  | .call r args _ => E.CallBound vars r ∧ ExprsBound vars args
  | .literal _ _ => True
  | .newObject c _ => E.HasClass c.name
  | .newArray _ size _ => ExprBound vars size

def ExprsBound (vars : List Local) : List Expr → Prop
  | [] => True
  | e :: es => ExprBound vars e ∧ ExprsBound vars es

end

mutual

/-- A statement whose first local is the `k`-th of its method. -/
def StmtBound (k : Nat) (vars : List Local) : Stmt → Prop
  | .block body _ => StmtsBound k vars body
  | .declare v init _ => E.ExprBound (v.seenByInit k vars) init
  | .assign r value _ => E.RefBound vars r ∧ E.ExprBound vars value
  | .assignIndex r i value _ => E.RefBound vars r ∧ E.ExprBound vars i ∧ E.ExprBound vars value
  | .call r args _ => E.CallBound vars r ∧ E.ExprsBound vars args
  | .ret none _ => True
  | .ret (some value) _ => E.ExprBound vars value
  | .ifThen cond t _ => E.ExprBound vars cond ∧ StmtBound k vars t
  | .ifElse cond t e _ =>
    E.ExprBound vars cond ∧ StmtBound k vars t ∧ StmtBound (k + t.locals.length) vars e
  | .loop cond body _ => E.ExprBound vars cond ∧ StmtBound k vars body

def StmtsBound (k : Nat) (vars : List Local) : List Stmt → Prop
  | [] => True
  | s :: ss => StmtBound k vars s ∧ StmtsBound (k + s.locals.length) (s.seen k vars) ss

end

theorem Binds.meaning_eq {E : Setting} {vars : List Local} {r : Ref} {d : Meaning}
    (h : E.Binds vars r d) : r.meaning = some d := by
  cases h <;> rfl

end Setting

/-- The setting of a method of a program. -/
def Program.setting (p : Program) (owner : String)
    (m : Method) : Setting := ⟨p.heads, owner, m.toSignature⟩

/-- What resolution makes of a program: classes and members have names of their own, and bodies are
bound. -/
structure Program.Bound (p : Program) : Prop where
  classNames : (p.heads.map (·.name)).Nodup
  memberNames : ∀ c ∈ p.heads, (c.fields.map (·.name) ++ c.methods.map (·.name)).Nodup
  bodies : ∀ c ∈ p.classes, ∀ m ∈ c.methods, (p.setting c.name m).StmtsBound 0 [] m.body

end MiniJava
