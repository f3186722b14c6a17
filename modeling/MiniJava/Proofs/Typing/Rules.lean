import MiniJava.Generate.Program
import MiniJava.Proofs.Scope.Setting
import MiniJava.Typing.Check
/-!
The typing rules of the language, over programs whose references are resolved. They know no error
type: a phrase has a type or none.
-/
namespace MiniJava

/-- A location takes values of its own type, and null if it holds references. -/
inductive Ty.Accepts : Ty → Ty → Prop
  | same (t : Ty) : Accepts t t
  | null {t : Ty} : t.isReference = true → Accepts t .null

/-- The type of the operand, which is also that of the result. -/
inductive UnaryOp.HasTy : UnaryOp → Ty → Prop
  | not : HasTy .not .boolean
  | neg : HasTy .neg .int

/-- The types of the operands and of the result. -/
inductive BinaryOp.HasTy : BinaryOp → Ty → Ty → Ty → Prop
  | arithmetic {op} : op ∈ [add, sub, mul, div] → HasTy op .int .int .int
  | order {op} : op ∈ [lt, le, gt, ge] → HasTy op .int .int .boolean
  | logic {op} : op ∈ [and, or] → HasTy op .boolean .boolean .boolean
  | equality {op t} : op ∈ [eq, ne] → t ≠ .void → HasTy op t t .boolean
  | nullRight {op t} : op ∈ [eq, ne] → t.isReference = true → HasTy op t .null .boolean
  | nullLeft {op t} : op ∈ [eq, ne] → t.isReference = true → HasTy op .null t .boolean

inductive Literal.HasTy : Literal → Ty → Prop
  | int (digits : String) : HasTy (.int digits) .int
  | bool (value : Bool) : HasTy (.bool value) .boolean
  | null : HasTy .null .null

/-- What can be assigned: variables, parameters and fields, but not the length of an array. -/
def Meaning.isPlace : Meaning → Bool
  | .field _ _ => true
  | .param _ _ => true
  | .localVar _ _ => true
  | _ => false

namespace Ref

/-- A reference has the declared type of what it denotes. -/
def HasTy (r : Ref) (t : Ty) : Prop := ∃ d, r.meaning = some d ∧ d.ty = t

/-- A reference used as a value denotes no method and, unless it is `this`, no class. -/
def ValueTy (r : Ref) (t : Ty) : Prop := r.HasTy t ∧ r.isValue = true

def TargetTy (r : Ref) (t : Ty) : Prop := ∃ d, r.meaning = some d ∧ d.isPlace = true ∧ d.ty = t

end Ref

mutual

inductive Expr.HasTy : Expr → Ty → Prop
  | unary {op s e t} : op.HasTy t → Expr.HasTy e t → Expr.HasTy (.unary op s e) t
  | binary {op s l r tl tr t} : op.HasTy tl tr t → Expr.HasTy l tl → Expr.HasTy r tr →
      Expr.HasTy (.binary op s l r) t
  | ref {r t} : r.ValueTy t → Expr.HasTy (.ref r) t
  | index {r i s t} : r.ValueTy (.array t) → Expr.HasTy i .int → Expr.HasTy (.index r i s) t
  | call {r args s owner m} : r.meaning = some (.method owner m) → Expr.ArgsFit args m.params →
      Expr.HasTy (.call r args s) m.type.ty
  | literal {l s t} : l.HasTy t → Expr.HasTy (.literal l s) t
  | newObject {c s} : Expr.HasTy (.newObject c s) (.cls c.name)
  | newArray {elem size s} : Expr.HasTy size .int →
      Expr.HasTy (.newArray elem size s) (.array elem.ty)

/-- Arguments fit parameters one by one. -/
inductive Expr.ArgsFit : List Expr → List Variable → Prop
  | nil : Expr.ArgsFit [] []
  | cons {e es v vs t} : Expr.HasTy e t → v.type.ty.Accepts t → Expr.ArgsFit es vs →
      Expr.ArgsFit (e :: es) (v :: vs)

end

def Stmt.isDeclaration : Stmt → Bool
  | .declare _ _ _ => true
  | _ => false

mutual

/-- The statements of a method; a branch is no lone declaration. -/
inductive Stmt.WellTyped (m : Signature) : Stmt → Prop
  | block {body s} : Stmt.AllWellTyped m body → Stmt.WellTyped m (.block body s)
  | declare {v init s t} : init.HasTy t → v.type.ty.Accepts t → Stmt.WellTyped m (.declare v init s)
  | assign {r value s location t} : r.TargetTy location → value.HasTy t → location.Accepts t →
      Stmt.WellTyped m (.assign r value s)
  | assignIndex {r i value s elem t} : r.ValueTy (.array elem) → i.HasTy .int → value.HasTy t →
      elem.Accepts t →
      Stmt.WellTyped m (.assignIndex r i value s)
  | call {r args s owner callee} : r.meaning = some (.method owner callee) →
      Expr.ArgsFit args callee.params →
      Stmt.WellTyped m (.call r args s)
  | retNone {s} : m.type.ty = .void → Stmt.WellTyped m (.ret none s)
  | ret {value s t} : m.type.ty ≠ .void → value.HasTy t → m.type.ty.Accepts t →
      Stmt.WellTyped m (.ret (some value) s)
  | ifThen {cond t s} : cond.HasTy .boolean → t.isDeclaration = false → Stmt.WellTyped m t →
      Stmt.WellTyped m (.ifThen cond t s)
  | ifElse {cond t e s} : cond.HasTy .boolean → t.isDeclaration = false → Stmt.WellTyped m t →
      e.isDeclaration = false → Stmt.WellTyped m e → Stmt.WellTyped m (.ifElse cond t e s)
  | loop {cond body s} : cond.HasTy .boolean → body.isDeclaration = false → Stmt.WellTyped m body →
      Stmt.WellTyped m (.loop cond body s)

inductive Stmt.AllWellTyped (m : Signature) : List Stmt → Prop
  | nil : Stmt.AllWellTyped m []
  | cons {s ss} : Stmt.WellTyped m s → Stmt.AllWellTyped m ss → Stmt.AllWellTyped m (s :: ss)

end

/-- A method with a result ends with a return statement. -/
structure Method.WellTyped (m : Method) : Prop where
  body : Stmt.AllWellTyped m.toSignature m.body
  returns : m.type.ty ≠ .void → ∃ value s, m.body.getLast? = some (.ret value s)

/-- `public static void main(String[] args)` -/
structure Signature.IsEntry (m : Signature) : Prop where
  name : m.name = "main"
  notPrivate : m.isPrivate = false
  static : m.isStatic = true
  void : m.type.ty = .void
  params : m.params.map (·.type.ty) = [.array (.cls "String")]

/-- The method named by `key` has the signature of an entry method, and no other one has. -/
def Program.EntersAt (p : Program) (key : MethodKey) : Prop :=
  ∃ before m after, p.methods = before ++ (key.owner, m) :: after ∧ m.name = key.name ∧ m.IsEntry ∧
    ∀ x ∈ before ++ after, ¬ x.2.IsEntry

structure Program.WellTyped (p : Program) : Prop where
  entry : ∃ key, p.EntersAt key
  methods : ∀ c ∈ p.classes, ∀ m ∈ c.methods, m.WellTyped

/-- The type that the rules give to a phrase. -/
def Node.HasTy : Node → Ty → Prop
  | .ref r, t => r.HasTy t
  | .expr e, t => e.HasTy t

theorem TypeName.ty_ne_error (t : TypeName) : t.ty ≠ .error := by
  cases t <;> exact fun h => by cases h

theorem TypeName.elem_ne_error {t : TypeName} {elem : Ty}
    (h : t.ty = .array elem) : elem ≠ .error := by
  cases t with
  | array e s => cases h; exact e.ty_ne_error
  | int | boolean | void | cls => cases h

theorem Meaning.ty_ne_error (d : Meaning) : d.ty ≠ .error := by
  cases d with
  | cls name => exact fun h => by cases h
  | field owner f => exact f.type.ty_ne_error
  | method owner m => exact m.type.ty_ne_error
  | param i v => exact v.type.ty_ne_error
  | localVar i v => exact v.type.ty_ne_error
  | length => exact fun h => by cases h

theorem Meaning.elem_ne_error {d : Meaning} {elem : Ty}
    (h : d.ty = .array elem) : elem ≠ .error := by
  cases d with
  | field owner f => exact TypeName.elem_ne_error h
  | method owner m => exact TypeName.elem_ne_error h
  | param i v => exact TypeName.elem_ne_error h
  | localVar i v => exact TypeName.elem_ne_error h
  | cls | length => cases h

theorem Ref.HasTy.unique {r : Ref} {t t' : Ty} (h : r.HasTy t) (h' : r.HasTy t') : t = t' := by
  obtain ⟨d, hd, rfl⟩ := h
  obtain ⟨d', hd', rfl⟩ := h'
  rw [hd] at hd'
  cases hd'
  rfl

theorem UnaryOp.HasTy.unique {op : UnaryOp} {t t' : Ty} (h : op.HasTy t)
    (h' : op.HasTy t') : t = t' := by
  cases h <;> cases h' <;> rfl

theorem BinaryOp.HasTy.unique {op : BinaryOp} {tl tr t tl' tr' t' : Ty} (h : op.HasTy tl tr t)
    (h' : op.HasTy tl' tr' t') : t = t' := by
  cases op <;> cases h <;> simp_all <;> cases h' <;> simp_all

theorem Literal.HasTy.unique {l : Literal} {t t' : Ty} (h : l.HasTy t)
    (h' : l.HasTy t') : t = t' := by
  cases h <;> cases h' <;> rfl

theorem Expr.HasTy.unique {e : Expr} {t t' : Ty} (h : e.HasTy t) (h' : e.HasTy t') : t = t' := by
  cases h with
  | unary ho _ => cases h' with | unary ho' _ => exact ho.unique ho'
  | binary ho _ _ => cases h' with | binary ho' _ _ => exact ho.unique ho'
  | ref hr => cases h' with | ref hr' => exact hr.1.unique hr'.1
  | index hr _ => cases h' with | index hr' _ => exact Ty.array.inj (hr.1.unique hr'.1)
  | call hm _ =>
    cases h' with
    | call hm' _ =>
      rw [hm] at hm'
      cases hm'
      rfl
  | literal hl => cases h' with | literal hl' => exact hl.unique hl'
  | newObject => cases h'; rfl
  | newArray _ => cases h'; rfl

theorem Ref.HasTy.ne_error {r : Ref} {t : Ty} (h : r.HasTy t) : t ≠ .error := by
  obtain ⟨d, -, rfl⟩ := h
  exact d.ty_ne_error

theorem Ref.TargetTy.ne_error {r : Ref} {t : Ty} (h : r.TargetTy t) : t ≠ .error := by
  obtain ⟨d, -, -, rfl⟩ := h
  exact d.ty_ne_error

theorem Ref.ValueTy.elem_ne_error {r : Ref} {elem : Ty}
    (h : r.ValueTy (.array elem)) : elem ≠ .error := by
  obtain ⟨⟨d, -, hd⟩, -⟩ := h
  exact Meaning.elem_ne_error hd

theorem Expr.HasTy.ne_error {e : Expr} {t : Ty} (h : e.HasTy t) : t ≠ .error := by
  cases h with
  | unary ho _ => cases ho <;> exact fun h => by cases h
  | binary ho _ _ => cases ho <;> exact fun h => by cases h
  | ref hr => exact hr.1.ne_error
  | index hr _ => exact hr.elem_ne_error
  | call hm _ => exact TypeName.ty_ne_error _
  | literal hl => cases hl <;> exact fun h => by cases h
  | newObject => exact fun h => by cases h
  | newArray _ => exact fun h => by cases h

theorem Node.HasTy.ne_error {n : Node} {t : Ty} (h : n.HasTy t) : t ≠ .error := by
  cases n with
  | ref r => exact Ref.HasTy.ne_error h
  | expr e => exact Expr.HasTy.ne_error h

end MiniJava
