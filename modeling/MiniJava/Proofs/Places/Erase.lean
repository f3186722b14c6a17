import MiniJava.Proofs.Sequence
import MiniJava.Proofs.Syntax.Sound
import MiniJava.Syntax.Library
/-!
Programs without their places. Erasing the lines of a phrase keeps all else: names, types and
meanings. A computation mirrors another if it does with erased data what the other does with the
data.
-/
namespace MiniJava

/-! ### Erasing lines -/

def Signature.shape (m : Signature) : Signature :=
  { m with type := m.type.shape, span := blank, params := m.params.map Variable.shape }

/-- The meaning without the lines of the declaration. -/
def Meaning.erase : Meaning → Meaning
  | cls name => cls name
  | field owner f => field owner f.shape
  | method owner m => method owner m.shape
  | param i v => param i v.shape
  | localVar i v => localVar i v.shape
  | length => length

/-- The reference without lines, in its meanings too. -/
def Ref.erase : Ref → Ref
  | this _ d => this blank (d.map Meaning.erase)
  | name id d => name id.shape (d.map Meaning.erase)
  | member q id d => member q.erase id.shape (d.map Meaning.erase)

mutual

def Expr.erase : Expr → Expr
  | .unary op _ e => .unary op blank e.erase
  | .binary op _ l r => .binary op blank l.erase r.erase
  | .ref r => .ref r.erase
  | .index r i _ => .index r.erase i.erase blank
  | .call r args _ => .call r.erase (Expr.eraseAll args) blank
  | .literal l _ => .literal l blank
  | .newObject c _ => .newObject c.shape blank
  | .newArray t size _ => .newArray t.shape size.erase blank

def Expr.eraseAll : List Expr → List Expr
  | [] => []
  | e :: es => e.erase :: Expr.eraseAll es

end

mutual

def Stmt.erase : Stmt → Stmt
  | .block body _ => .block (Stmt.eraseAll body) blank
  | .declare v init _ => .declare v.shape init.erase blank
  | .assign r value _ => .assign r.erase value.erase blank
  | .assignIndex r i value _ => .assignIndex r.erase i.erase value.erase blank
  | .call r args _ => .call r.erase (Expr.eraseAll args) blank
  | .ret none _ => .ret none blank
  | .ret (some value) _ => .ret (some value.erase) blank
  | .ifThen cond t _ => .ifThen cond.erase t.erase blank
  | .ifElse cond t e _ => .ifElse cond.erase t.erase e.erase blank
  | .loop cond body _ => .loop cond.erase body.erase blank

def Stmt.eraseAll : List Stmt → List Stmt
  | [] => []
  | s :: ss => s.erase :: Stmt.eraseAll ss

end

def Method.erase (m : Method) : Method := { m.toSignature.shape with body := Stmt.eraseAll m.body }

def ClassDecl.erase (c : ClassDecl) : ClassDecl :=
  ⟨c.id.shape, blank, c.fields.map Field.shape, c.methods.map Method.erase⟩

/-- The program without the places of its phrases and declarations. -/
def Program.erase (p : Program) : Program := ⟨p.classes.map ClassDecl.erase, blank⟩

/-! ### What erasing keeps -/

@[simp] theorem Ident.name_shape (id : Ident) : id.shape.name = id.name := rfl

theorem Ref.span_erase (r : Ref) : r.erase.span = blank := by
  induction r with
  | this | name => rfl
  | member q id d ih =>
    rw [erase, span, ih]
    rfl

namespace Meaning

variable (d : Meaning)

@[simp] theorem kind_erase : d.erase.kind = d.kind := by
  cases d <;> rfl

@[simp] theorem name_erase : d.erase.name = d.name := by
  cases d <;> rfl

@[simp] theorem isPrivate_erase : d.erase.isPrivate = d.isPrivate := by
  cases d <;> rfl

@[simp] theorem isInstance_erase : d.erase.isInstance = d.isInstance := by
  cases d <;> rfl

@[simp] theorem ty_erase : d.erase.ty = d.ty := by
  cases d with
  | cls | length => rfl
  | field | method | param | localVar => exact TypeName.ty_shape _

end Meaning

@[simp] theorem Ref.meaning_erase (r : Ref) : r.erase.meaning = r.meaning.map Meaning.erase := by
  cases r <;> rfl

@[simp] theorem Ref.lastName_erase (r : Ref) : r.erase.lastName = r.lastName := by
  cases r <;> rfl

theorem Stmt.eraseAll_eq_map (ss : List Stmt) : Stmt.eraseAll ss = ss.map Stmt.erase := by
  induction ss with
  | nil => rfl
  | cons s ss ih => rw [eraseAll, ih, List.map_cons]

theorem Library.map_erase_classes : Library.classes.map ClassDecl.erase = Library.classes := rfl

theorem Program.allClasses_erase (p : Program) :
    p.erase.allClasses = p.allClasses.map ClassDecl.erase := by
  rw [allClasses, allClasses, List.map_append, Library.map_erase_classes]
  rfl

/-! ### Erasing what has no lines -/

theorem TypeName.shape_shape (t : TypeName) : t.shape.shape = t.shape := by
  induction t with
  | int | boolean | void | cls => rfl
  | array elem s ih => rw [shape, shape, ih]

theorem Variable.shape_shape (v : Variable) : v.shape.shape = v.shape := by
  rw [shape, shape, v.type.shape_shape]

theorem Field.shape_shape (f : Field) : f.shape.shape = f.shape := by
  rw [shape, shape, f.type.shape_shape]

theorem Ref.erase_shape (r : Ref) : r.shape.erase = r.erase := by
  induction r with
  | this | name => rfl
  | member q id d ih =>
    rw [shape, erase, erase, ih]
    rfl

mutual

theorem Expr.erase_shape : ∀ e : Expr, e.shape.erase = e.erase
  | .unary op s e => by rw [Expr.shape, Expr.erase, Expr.erase, Expr.erase_shape e]
  | .binary op s l r =>
    by rw [Expr.shape, Expr.erase, Expr.erase, Expr.erase_shape l, Expr.erase_shape r]
  | .ref r => by rw [Expr.shape, Expr.erase, Expr.erase, r.erase_shape]
  | .index r i s => by rw [Expr.shape, Expr.erase, Expr.erase, r.erase_shape, Expr.erase_shape i]
  | .call r args s =>
    by rw [Expr.shape, Expr.erase, Expr.erase, r.erase_shape, Expr.eraseAll_shapes args]
  | .literal l s => by rw [Expr.shape, Expr.erase, Expr.erase]
  | .newObject c s => by rw [Expr.shape, Expr.erase, Expr.erase]; rfl
  | .newArray t size s =>
    by rw [Expr.shape, Expr.erase, Expr.erase, t.shape_shape, Expr.erase_shape size]

theorem Expr.eraseAll_shapes : ∀ es : List Expr, Expr.eraseAll (Expr.shapes es) = Expr.eraseAll es
  | [] => by rw [Expr.shapes]
  | e :: es =>
    by rw [Expr.shapes, Expr.eraseAll, Expr.eraseAll, Expr.erase_shape e, Expr.eraseAll_shapes es]

end

mutual

theorem Stmt.erase_shape : ∀ s : Stmt, s.shape.erase = s.erase
  | .block body s => by rw [Stmt.shape, Stmt.erase, Stmt.erase, Stmt.eraseAll_shapes body]
  | .declare v init s => by rw [Stmt.shape, Stmt.erase, Stmt.erase, v.shape_shape, init.erase_shape]
  | .assign r value s =>
    by rw [Stmt.shape, Stmt.erase, Stmt.erase, r.erase_shape, value.erase_shape]
  | .assignIndex r i value s => by
    rw [Stmt.shape, Stmt.erase, Stmt.erase, r.erase_shape, i.erase_shape, value.erase_shape]
  | .call r args s =>
    by rw [Stmt.shape, Stmt.erase, Stmt.erase, r.erase_shape, Expr.eraseAll_shapes]
  | .ret none s => by rw [Stmt.shape, Stmt.erase, Stmt.erase]
  | .ret (some value) s => by rw [Stmt.shape, Stmt.erase, Stmt.erase, value.erase_shape]
  | .ifThen cond t s =>
    by rw [Stmt.shape, Stmt.erase, Stmt.erase, cond.erase_shape, Stmt.erase_shape t]
  | .ifElse cond t e s => by
    rw [Stmt.shape, Stmt.erase, Stmt.erase, cond.erase_shape, Stmt.erase_shape t,
      Stmt.erase_shape e]
  | .loop cond body s =>
    by rw [Stmt.shape, Stmt.erase, Stmt.erase, cond.erase_shape, Stmt.erase_shape body]

theorem Stmt.eraseAll_shapes : ∀ ss : List Stmt, Stmt.eraseAll (Stmt.shapes ss) = Stmt.eraseAll ss
  | [] => by rw [Stmt.shapes]
  | s :: ss =>
    by rw [Stmt.shapes, Stmt.eraseAll, Stmt.eraseAll, Stmt.erase_shape s, Stmt.eraseAll_shapes ss]

end

theorem Method.erase_shape (m : Method) : m.shape.erase = m.erase := by
  simp only [shape, erase, Signature.shape, TypeName.shape_shape, Stmt.eraseAll_shapes,
    List.map_map, Function.comp_def, Variable.shape_shape]

theorem ClassDecl.erase_shape (c : ClassDecl) : c.shape.erase = c.erase := by
  simp only [shape, erase, List.map_map, Function.comp_def, Field.shape_shape, Method.erase_shape]
  rfl

theorem Program.erase_shape (p : Program) : p.shape.erase = p.erase := by
  simp only [shape, erase, List.map_map, Function.comp_def, ClassDecl.erase_shape]

/-! ### Computations on erased data -/

section Mirrors

variable {ε σ α α' β β' : Type}

/-- The outcome with its value and its error changed. -/
def mapBoth (g : ε → ε) (f : α → β) : Except ε α → Except ε β
  | .ok a => .ok (f a)
  | .error e => .error (g e)

theorem mapBoth_bind {g : ε → ε} {f : α → α'} {h : β → β'} {x : Except ε α} {y : Except ε α'}
    {k : α → Except ε β} {k' : α' → Except ε β'} (hx : y = mapBoth g f x)
    (hk : ∀ a, k' (f a) = mapBoth g h (k a)) : (y >>= k') = mapBoth g h (x >>= k) := by
  subst hx
  cases x with
  | ok a => exact hk a
  | error e => rfl

/-- The result with its value, its error and its state changed. -/
def mapResult (g : ε → ε) (h : σ → σ) (f : α → β) : EStateM.Result ε σ α → EStateM.Result ε σ β
  | .ok a s => .ok (f a) (h s)
  | .error e s => .error (g e) (h s)

/-- From a changed state, `q` gives the changed result of `p`. -/
def Mirrors (g : ε → ε) (h : σ → σ) (f : α → β) (p : EStateM ε σ α) (q : EStateM ε σ β) : Prop :=
  ∀ s, q (h s) = mapResult g h f (p s)

variable {g : ε → ε} {h : σ → σ} {f : α → β}

theorem Mirrors.pure {a : α} {b : β} (hb : f a = b) :
    Mirrors g h f (Pure.pure a) (Pure.pure b) := by
  intro s
  subst hb
  rfl

theorem Mirrors.bind {f' : α' → β'} {p : EStateM ε σ α} {q : EStateM ε σ β} {k : α → EStateM ε σ α'}
    {k' : β → EStateM ε σ β'} (hp : Mirrors g h f p q) (hk : ∀ a, Mirrors g h f' (k a) (k' (f a))) :
    Mirrors g h f' (p >>= k) (q >>= k') := by
  intro s
  cases hs : p s with
  | ok a t =>
    have hq : q (h s) = .ok (f a) (h t) := by rw [hp s, hs, mapResult]
    rw [EStateM.bind_of_ok hs, EStateM.bind_of_ok hq]
    exact hk a t
  | error e t =>
    have hq : q (h s) = .error (g e) (h t) := by rw [hp s, hs, mapResult]
    rw [EStateM.bind_of_error hs, EStateM.bind_of_error hq, mapResult]

end Mirrors

end MiniJava
