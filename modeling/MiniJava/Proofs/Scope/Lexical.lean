import MiniJava.Proofs.Scope.Setting
import MiniJava.Scope.Unbound
/-!
The scoping rules. A bare name denotes the local of the nearest block that has declared one of that
name, else the parameter, else the member of the current class, else the class. Members are selected
by the declared type of what stands before the dot.
-/
namespace MiniJava

/-- The member of a class with a name. -/
def ClassHead.member? (c : ClassHead) (name : String) : Option Meaning :=
  ((c.fields.find? (·.name == name)).map (.field c.name)).or
    ((c.methods.find? (·.name == name)).map (.method c.name))

/-- The class that a written type names is declared. -/
def TypeName.Declared (classes : List ClassHead) : TypeName → Prop
  | .cls id => ∃ c ∈ classes, c.name = id.name
  | .array elem _ => elem.Declared classes
  | _ => True

/-- The locals declared so far in the blocks around a place: the innermost block first, and the
latest local of a block first. -/
abbrev Blocks := List (List Local)

/-- The local of a block with a name. -/
def localIn (block : List Local) (name : String) : Option Meaning :=
  (block.find? (·.2.name == name)).map fun x => .localVar x.1 x.2

namespace Blocks

/-- The local with a name in the nearest block that has one. -/
def nearest? (blocks : Blocks) (name : String) : Option Meaning := blocks.findSome? (localIn · name)

/-- Declares a local in the innermost block. -/
def declare (x : Local) : Blocks → Blocks
  | [] => [[x]]
  | block :: blocks => (x :: block) :: blocks

end Blocks

/-- The blocks after a statement whose first local is the `k`-th of its method. -/
def Stmt.blocksAfter (k : Nat) (blocks : Blocks) : Stmt → Blocks
  | .declare v _ _ => blocks.declare (k, v)
  | _ => blocks

/-- The blocks around the initializer of `v`, which is not declared there yet. A variable without a
name cannot be kept out by its name. -/
def Variable.blocksAround (k : Nat) (blocks : Blocks) (v : Variable) : Blocks :=
  if v.name = "" then blocks.declare (k, v) else blocks

/-- The name with which a reference starts. -/
def Ref.firstName? : Ref → Option String
  | .this _ _ => none
  | .name id _ => some id.name
  | .member q _ _ => q.firstName?

/-- The bare name that a reference in call position uses, other than the name of the method. -/
def Ref.calleeName? : Ref → Option String
  | .member q _ _ => q.firstName?
  | _ => none

mutual

/-- The names that stand alone or first in the references of an expression; the names of methods
that are called without a qualifier do not count. -/
def Expr.bareNames : Expr → List String
  | .unary _ _ e => e.bareNames
  | .binary _ _ l r => l.bareNames ++ r.bareNames
  | .ref r => r.firstName?.toList
  | .index r i _ => r.firstName?.toList ++ i.bareNames
  | .call r args _ => r.calleeName?.toList ++ Expr.bareNamesOf args
  | .literal _ _ => []
  | .newObject _ _ => []
  | .newArray _ size _ => size.bareNames

def Expr.bareNamesOf : List Expr → List String
  | [] => []
  | e :: es => e.bareNames ++ Expr.bareNamesOf es

end

namespace Setting

variable (E : Setting)

def class? (name : String) : Option ClassHead := E.classes.find? (·.name == name)

/-- The member of a class, both given by name. -/
def member? (cls name : String) : Option Meaning := (E.class? cls).bind (·.member? name)

/-- The parameter of the current method with a name. -/
def param? (name : String) : Option Meaning :=
  (E.method.params.zipIdx.find? (·.1.name == name)).map fun x => .param x.2 x.1

/-- What a bare name denotes. -/
def bare? (blocks : Blocks) (name : String) : Option Meaning :=
  (blocks.nearest? name).or <| (E.param? name).or <| (E.member? E.owner name).or <|
    (E.class? name).map (.cls ·.name)

/-- A reference outside call position denotes what the rules say, and so does each of its
qualifiers. No instance member is named alone in a static method or selected from a class by its
name, and private members are selected in their own class only. -/
inductive RefScoped (blocks : Blocks) : Ref → Meaning → Prop
  | this {s} : E.method.isStatic = false →
      RefScoped blocks (.this s (some (.cls E.owner))) (.cls E.owner)
  | name {id d} : E.bare? blocks id.name = some d →
      (E.method.isStatic = true → d.isInstance = false) →
      RefScoped blocks (.name id (some d)) d
  | length {q dq id t} : RefScoped blocks q dq → dq.kind ≠ .method → dq.ty = .array t →
      id.name = "length" →
      RefScoped blocks (.member q id (some .length)) .length
  | member {q dq id c d} : RefScoped blocks q dq → dq.kind ≠ .method → dq.ty = .cls c →
      E.member? c id.name = some d → (d.isPrivate = true → c = E.owner) →
      (∀ qid, q = .name qid (some (.cls c)) → d.isInstance = false) →
        RefScoped blocks (.member q id (some d)) d

/-- A reference in call position denotes a method. A bare one is that of the current class. -/
inductive CallScoped (blocks : Blocks) : Ref → Prop
  | bare {id owner m} : E.member? E.owner id.name = some (.method owner m) →
      (E.method.isStatic = true → m.isStatic = true) →
        CallScoped blocks (.name id (some (.method owner m)))
  | member {q id d owner m} : RefScoped E blocks (.member q id d) (.method owner m) →
      CallScoped blocks (.member q id d)

mutual

def ExprScoped (blocks : Blocks) : Expr → Prop
  | .unary _ _ e => ExprScoped blocks e
  | .binary _ _ l r => ExprScoped blocks l ∧ ExprScoped blocks r
  | .ref r => ∃ d, E.RefScoped blocks r d
  | .index r i _ => (∃ d, E.RefScoped blocks r d) ∧ ExprScoped blocks i
  | .call r args _ => E.CallScoped blocks r ∧ ExprsScoped blocks args
  | .literal _ _ => True
  | .newObject c _ => TypeName.Declared E.classes (.cls c)
  | .newArray t size _ => t.Declared E.classes ∧ ExprScoped blocks size

def ExprsScoped (blocks : Blocks) : List Expr → Prop
  | [] => True
  | e :: es => ExprScoped blocks e ∧ ExprsScoped blocks es

end

/-- A declaration of a local, the `k`-th of its method: its name is new among the locals and
parameters that can be seen, and its initializer does not use it. -/
structure DeclScoped (k : Nat) (blocks : Blocks) (v : Variable) (init : Expr) : Prop where
  type : v.type.Declared E.classes
  unseen : blocks.nearest? v.name = none
  noParam : E.param? v.name = none
  value : E.ExprScoped (v.blocksAround k blocks) init
  unused : v.name ≠ "" → v.name ∉ init.bareNames

mutual

/-- A statement whose first local is the `k`-th of its method. Branches and bodies of loops are
blocks. -/
def StmtScoped (k : Nat) (blocks : Blocks) : Stmt → Prop
  | .block body _ => StmtsScoped k ([] :: blocks) body
  | .declare v init _ => E.DeclScoped k blocks v init
  | .assign r value _ => (∃ d, E.RefScoped blocks r d) ∧ E.ExprScoped blocks value
  | .assignIndex r i value _ =>
    (∃ d, E.RefScoped blocks r d) ∧ E.ExprScoped blocks i ∧ E.ExprScoped blocks value
  | .call r args _ => E.CallScoped blocks r ∧ E.ExprsScoped blocks args
  | .ret none _ => True
  | .ret (some value) _ => E.ExprScoped blocks value
  | .ifThen cond t _ => E.ExprScoped blocks cond ∧ StmtScoped k ([] :: blocks) t
  | .ifElse cond t e _ =>
    E.ExprScoped blocks cond ∧ StmtScoped k ([] :: blocks) t ∧
      StmtScoped (k + t.locals.length) ([] :: blocks) e
  | .loop cond body _ => E.ExprScoped blocks cond ∧ StmtScoped k ([] :: blocks) body

def StmtsScoped (k : Nat) (blocks : Blocks) : List Stmt → Prop
  | [] => True
  | s :: ss => StmtScoped k blocks s ∧ StmtsScoped (k + s.locals.length) (s.blocksAfter k blocks) ss

end

/-- A method with parameters under different names and a scoped body. -/
structure MethodScoped (body : List Stmt) : Prop where
  result : E.method.type.Declared E.classes
  params : ∀ v ∈ E.method.params, v.type.Declared E.classes
  paramNames : (E.method.params.map (·.name)).Nodup
  body : E.StmtsScoped 0 [[]] body

variable {E} {blocks : Blocks} {name cls : String} {d : Meaning}

theorem class?_eq_some {c : ClassHead}
    (h : E.class? name = some c) : c ∈ E.classes ∧ c.name = name := by
  refine ⟨List.mem_of_find?_eq_some h, ?_⟩
  simpa using List.find?_some h

theorem member?_cases (h : E.member? cls name = some d) :
    (∃ f, E.HasField cls f ∧ d = .field cls f) ∨ ∃ m, E.HasMethod cls m ∧ d = .method cls m := by
  obtain ⟨c, hc, hmember⟩ := Option.bind_eq_some_iff.mp h
  obtain ⟨hmem, rfl⟩ := class?_eq_some hc
  rw [ClassHead.member?, Option.or_eq_some_iff] at hmember
  rcases hmember with hmember | ⟨-, hmember⟩
  · obtain ⟨f, hf, rfl⟩ := Option.map_eq_some_iff.mp hmember
    exact .inl ⟨f, ⟨c, hmem, rfl, List.mem_of_find?_eq_some hf⟩, rfl⟩
  · obtain ⟨m, hm, rfl⟩ := Option.map_eq_some_iff.mp hmember
    exact .inr ⟨m, ⟨c, hmem, rfl, List.mem_of_find?_eq_some hm⟩, rfl⟩

theorem bare?_cases (h : E.bare? blocks name = some d) :
    (∃ block ∈ blocks, ∃ x ∈ block, d = .localVar x.1 x.2) ∨
      (∃ i v, E.method.params[i]? = some v ∧ d = .param i v) ∨
      E.member? E.owner name = some d ∨ (E.HasClass name ∧ d = .cls name) := by
  rw [bare?, Option.or_eq_some_iff, Option.or_eq_some_iff, Option.or_eq_some_iff] at h
  rcases h with h | ⟨-, h | ⟨-, h | ⟨-, h⟩⟩⟩
  · obtain ⟨block, hblock, hlocal⟩ := List.exists_of_findSome?_eq_some h
    obtain ⟨x, hx, rfl⟩ := Option.map_eq_some_iff.mp hlocal
    exact .inl ⟨block, hblock, x, List.mem_of_find?_eq_some hx, rfl⟩
  · obtain ⟨⟨v, i⟩, hx, rfl⟩ := Option.map_eq_some_iff.mp h
    exact .inr (.inl ⟨i, v, List.mk_mem_zipIdx_iff_getElem?.mp (List.mem_of_find?_eq_some hx), rfl⟩)
  · exact .inr (.inr (.inl h))
  · obtain ⟨c, hc, rfl⟩ := Option.map_eq_some_iff.mp h
    obtain ⟨hmem, rfl⟩ := class?_eq_some hc
    exact .inr (.inr (.inr ⟨⟨c, hmem, rfl⟩, rfl⟩))

end Setting

/-- Classes and members have names of their own, and every name follows the scoping rules. -/
structure Program.Scoped (p : Program) : Prop where
  classNames : (p.heads.map (·.name)).Nodup
  memberNames : ∀ c ∈ p.heads, (c.fields.map (·.name) ++ c.methods.map (·.name)).Nodup
  fieldTypes : ∀ c ∈ p.classes, ∀ f ∈ c.fields, f.type.Declared p.heads
  methods : ∀ c ∈ p.classes, ∀ m ∈ c.methods, (p.setting c.name m).MethodScoped m.body

end MiniJava
