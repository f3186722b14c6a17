import MiniJava.Proofs.Scope.Resolved
import MiniJava.Syntax.Walk
/-!
What resolution selects for a member of a variable. Resolution reads a program in source order and
stops at the first name that it refuses, so it meets a reference only if everything before it is
well named. A reference that it meets decides the outcome: if it is refused, so is the program, and
otherwise it stands with its meaning in the program that comes out.
-/
namespace MiniJava

/-- `r` is the reference itself or a qualifier in it. -/
def Ref.StartOf (r : Ref) : Ref → Prop
  | this s d => r = this s d
  | name id d => r = name id d
  | member q id d => r = member q id d ∨ r.StartOf q

/-- The same in call position, where a bare name is looked up among the methods only. -/
def Ref.CalleeStart (r : Ref) : Ref → Prop
  | member q id d => r.StartOf (member q id d)
  | _ => False

theorem Program.mem_nodes {p : Program} {c i : Nat} {d : ClassDecl} {m : Method} {n : Node}
    (hd : p.classes[c]? = some d) (hm : d.methods[i]? = some m)
    (hn : n ∈ m.nodes) : (c, i, n) ∈ p.nodes := by
  have hmethod : m.nodes.map (fun n => (c, i, n)) ∈ d.methods.mapIdx fun i m => m.nodes.map fun n =>
      (c, i, n) := by
    refine List.mem_of_getElem? (i := i) ?_
    rw [List.getElem?_mapIdx, hm]
    rfl
  have hclass : (d.methods.mapIdx fun i m => m.nodes.map fun n => (c, i, n)).flatten ∈
      p.classes.mapIdx fun c d =>
        (d.methods.mapIdx fun i m => m.nodes.map fun n => (c, i, n)).flatten := by
    refine List.mem_of_getElem? (i := c) ?_
    rw [List.getElem?_mapIdx, hd]
    rfl
  exact List.mem_flatten_of_mem hclass (List.mem_flatten_of_mem hmethod (List.mem_map_of_mem hn))

namespace Resolve

section Meets

variable (ctx : Context) (scopes : Scopes Meaning) (r : Ref)

mutual

/-- Reading the expression with these scopes meets the reference. -/
def ExprMeets : Expr → Prop
  | .unary _ _ e => ExprMeets e
  | .binary _ _ e e' => ExprMeets e ∨ (∃ x, ctx.expr scopes e = .ok x) ∧ ExprMeets e'
  | .ref q => r.StartOf q
  | .index q i _ => r.StartOf q ∨ (∃ x, ctx.ref scopes q = .ok x) ∧ ExprMeets i
  | .call q args _ => r.CalleeStart q ∨ (∃ x, ctx.callee scopes q = .ok x) ∧ ExprsMeet args
  | .literal _ _ => False
  | .newObject _ _ => False
  | .newArray t size _ => type ctx.classes t = .ok () ∧ ExprMeets size

def ExprsMeet : List Expr → Prop
  | [] => False
  | e :: es => ExprMeets e ∨ (∃ x, ctx.expr scopes e = .ok x) ∧ ExprsMeet es

end

/-- The state at the start of a scope of its own. -/
def State.inner (σ : State) : State := { σ with scopes := σ.scopes.openScope }

mutual

/-- Reading the statement from a state meets the reference, with these scopes open there. -/
def StmtMeets : Stmt → State → Prop
  | .block body _, σ => StmtsMeet body σ.inner
  | .declare v init _, σ =>
    type ctx.classes v.type = .ok () ∧ ∃ τ, declareLocal ctx v σ = .ok () τ ∧
      scopes = τ.scopes.startDeclaring v.name ∧ ExprMeets ctx scopes r init
  | .assign q value _, σ => scopes = σ.scopes ∧
      (r.StartOf q ∨ (∃ x, ctx.ref scopes q = .ok x) ∧ ExprMeets ctx scopes r value)
  | .assignIndex q i value _, σ => scopes = σ.scopes ∧
      (r.StartOf q ∨ (∃ x, ctx.ref scopes q = .ok x) ∧
        (ExprMeets ctx scopes r i ∨ (∃ x, ctx.expr scopes i = .ok x) ∧
          ExprMeets ctx scopes r value))
  | .call q args _, σ => scopes = σ.scopes ∧
      (r.CalleeStart q ∨ (∃ x, ctx.callee scopes q = .ok x) ∧ ExprsMeet ctx scopes r args)
  | .ret none _, _ => False
  | .ret (some value) _, σ => scopes = σ.scopes ∧ ExprMeets ctx scopes r value
  | .ifThen cond t _, σ => (scopes = σ.scopes ∧ ExprMeets ctx scopes r cond) ∨
      (∃ x, ctx.expr σ.scopes cond = .ok x) ∧ StmtMeets t σ.inner
  | .ifElse cond t e _, σ => (scopes = σ.scopes ∧ ExprMeets ctx scopes r cond) ∨
      (∃ x, ctx.expr σ.scopes cond = .ok x) ∧
        (StmtMeets t σ.inner ∨ ∃ t' τ, inScope (stmt ctx t) σ = .ok t' τ ∧ StmtMeets e τ.inner)
  | .loop cond body _, σ => (scopes = σ.scopes ∧ ExprMeets ctx scopes r cond) ∨
      (∃ x, ctx.expr σ.scopes cond = .ok x) ∧ StmtMeets body σ.inner

def StmtsMeet : List Stmt → State → Prop
  | [], _ => False
  | s :: ss, σ => StmtMeets s σ ∨ ∃ s' τ, stmt ctx s σ = .ok s' τ ∧ StmtsMeet ss τ

end

/-- Reading a method inside the scopes of its class meets the reference. -/
def MethodMeets (outer : Scopes Meaning) (m : Method) : Prop :=
  type ctx.classes m.type = .ok () ∧ ∃ inner, params ctx 0 m.params outer.openScope = .ok inner ∧
    StmtsMeet ctx scopes r m.body ⟨inner, 0⟩

def MethodsMeet (context : Signature → Nat → Context)
    (outer : Scopes Meaning) : Nat → List Method → Prop
  | _, [] => False
  | k, m :: ms => (ctx = context m.toSignature k ∧ MethodMeets ctx scopes r outer m) ∨
      (∃ x, method (context m.toSignature k) outer m = .ok x) ∧ MethodsMeet context outer (k + 1) ms

def ClassMeets (classes : List ClassDecl) (outer : Scopes Meaning) (i : Nat)
    (c : ClassDecl) : Prop :=
  ∃ inner, enterMembers c.name (members c i) outer.openScope = .ok inner ∧
    fieldTypes classes c.fields = .ok () ∧
    MethodsMeet ctx scopes r (fun m k => ⟨classes, c.name, m, i, k⟩) inner 0 c.methods

def ClassesMeet (classes : List ClassDecl) (outer : Scopes Meaning) : Nat → List ClassDecl → Prop
  | _, [] => False
  | i, c :: cs => ClassMeets ctx scopes r classes outer i c ∨
      (∃ x, classDecl classes outer i c = .ok x) ∧ ClassesMeet classes outer (i + 1) cs

end Meets

end Resolve

open Resolve

/-- Resolution of the program meets the reference in the method of a context, with these scopes open
there. -/
def Program.Meets (p : Program) (ctx : Context) (scopes : Scopes Meaning) (r : Ref) : Prop :=
  ∃ outer, enterClasses 0 p.classes predefined = .ok outer ∧
    ClassesMeet ctx scopes r p.allClasses outer 0 p.classes

namespace Resolve

section Outcomes

variable {α β : Type} {found : Except NamingError (Ref × Meaning)} {H : α → Ref → Prop}
  {H' : β → Ref → Prop}

/-- What the reading of a phrase makes of a reference that it meets, given what the reference itself
is found to be: the phrase holds the reference with its meaning, or the phrase is refused, and this
because of the reference if that is refused. -/
inductive Settles (found : Except NamingError (Ref × Meaning))
    (H : α → Ref → Prop) : Except NamingError α → Prop
  | bound {r d a} : found = .ok (r, d) → H a r → Settles found H (.ok a)
  | elsewhere {x e} : found = .ok x → Settles found H (.error e)
  | refused {e} : found = .error e → Settles found H (.error e)

/-- What comes after the reference can only refuse the phrase or keep the reference in it. -/
theorem Settles.bind {x : Except NamingError α} {f : α → Except NamingError β}
    (h : Settles found H x)
    (hf : ∀ a b, f a = .ok b → ∀ r, H a r → H' b r) : Settles found H' (x >>= f) := by
  cases h with
  | @bound r d a hfound ha =>
    change Settles found H' (f a)
    cases hb : f a with
    | ok b => exact .bound hfound (hf a b hb r ha)
    | error e => exact .elsewhere hfound
  | elsewhere hfound => exact .elsewhere hfound
  | refused hfound => exact .refused hfound

theorem Settles.after {x : Except NamingError α} {f : α → Except NamingError β} {a : α}
    (hx : x = .ok a) (h : Settles found H' (f a)) : Settles found H' (x >>= f) := by
  subst hx
  exact h

theorem Settles.error_eq {x : Except NamingError α} {e : NamingError} (h : Settles found H x)
    (he : found = .error e) : x = .error e := by
  cases h with
  | bound hfound _ => cases hfound.symm.trans he
  | elsewhere hfound => cases hfound.symm.trans he
  | refused hfound => cases hfound.symm.trans he; rfl

theorem Settles.holds {x : Except NamingError α} {a : α} {r : Ref} {d : Meaning}
    (h : Settles found H x) (hfound : found = .ok (r, d)) (hx : x = .ok a) : H a r := by
  subst hx
  cases h with
  | bound hfound' ha =>
    cases hfound'.symm.trans hfound
    exact ha

/-- The outcome of a step of a body without the state after it. -/
def outcome : EStateM.Result NamingError State α → Except NamingError α
  | .ok a _ => .ok a
  | .error e _ => .error e

theorem outcome_reading (f : Scopes Meaning → Except NamingError α)
    (σ : State) : outcome (reading f σ) = f σ.scopes := by
  unfold reading
  cases f σ.scopes <;> rfl

theorem outcome_inScope (step : Body α) (σ : State) :
    outcome (inScope step σ) = outcome (step σ.inner) := by
  unfold inScope State.inner
  cases step { σ with scopes := σ.scopes.openScope } <;> rfl

theorem Settles.bodyBind {x : Body α} {f : α → Body β} {σ : State}
    (h : Settles found H (outcome (x σ))) (hf : ∀ a τ b υ, f a τ = .ok b υ → ∀ r, H a r → H' b r) :
    Settles found H' (outcome ((x >>= f) σ)) := by
  cases hx : x σ with
  | ok a τ =>
    rw [EStateM.bind_of_ok hx]
    rw [hx] at h
    cases h with
    | @bound r d _ hfound ha =>
      cases hb : f a τ with
      | ok b υ => exact .bound hfound (hf a τ b υ hb r ha)
      | error e υ => exact .elsewhere hfound
  | error e τ =>
    rw [EStateM.bind_of_error hx]
    rw [hx] at h
    cases h with
    | elsewhere hfound => exact .elsewhere hfound
    | refused hfound => exact .refused hfound

theorem Settles.bodyReading {g : Scopes Meaning → Except NamingError α} {f : α → Body β} {σ : State}
    (h : Settles found H (g σ.scopes)) (hf : ∀ a τ b υ, f a τ = .ok b υ → ∀ r, H a r → H' b r) :
    Settles found H' (outcome ((reading g >>= f) σ)) := by
  refine Settles.bodyBind ?_ hf
  rw [outcome_reading]
  exact h

theorem Settles.afterReading {g : Scopes Meaning → Except NamingError α} {f : α → Body β}
    {σ : State} {a : α} (hx : g σ.scopes = .ok a) (h : Settles found H' (outcome (f a σ))) :
    Settles found H' (outcome ((reading g >>= f) σ)) := by
  rw [EStateM.bind_of_ok (reading_eq_ok.mpr ⟨hx, rfl⟩)]
  exact h

end Outcomes

section Phrases

variable {ctx : Context} {scopes : Scopes Meaning} {r : Ref}

theorem settles_ref {q : Ref} (h : r.StartOf q) :
    Settles (ctx.ref scopes r) (fun x r' => .ref r' ∈ x.1.nodes) (ctx.ref scopes q) := by
  have hself : Settles (ctx.ref scopes r) (fun x r' => .ref r' ∈ x.1.nodes) (ctx.ref scopes r) := by
    cases hr : ctx.ref scopes r with
    | ok x => exact .bound rfl x.1.self_mem_nodes
    | error e => exact .refused rfl
  induction q with
  | this s d => rw [Ref.StartOf] at h; exact h ▸ hself
  | name id d => rw [Ref.StartOf] at h; exact h ▸ hself
  | member q id d ih =>
    rcases h with rfl | h
    · exact hself
    · rw [Context.ref]
      refine (ih h).bind ?_
      rintro ⟨q₁, dq⟩ x hx r' hr'
      obtain ⟨d₁, -, hx⟩ := Except.bind_eq_ok.mp hx
      cases hx
      exact List.mem_append_left _ hr'

theorem settles_callee {q : Ref} (h : r.CalleeStart q) :
    Settles (ctx.ref scopes r) (fun x r' => .ref r' ∈ x.nodes) (ctx.callee scopes q) := by
  cases q with
  | this s d => exact h.elim
  | name id d => exact h.elim
  | member q id d =>
    rw [Context.callee]
    refine (settles_ref h).bind ?_
    rintro ⟨q₁, d₁⟩ x hx r' hr'
    cases d₁ with
    | method owner m => cases hx; exact hr'
    | cls | field | param | localVar | length => cases hx

mutual

theorem settles_expr : ∀ {e : Expr}, ExprMeets ctx scopes r e →
    Settles (ctx.ref scopes r) (fun x r' => .ref r' ∈ x.nodes) (ctx.expr scopes e)
  | .unary op s e, h => by
    rw [Context.expr]
    refine (settles_expr (e := e) h).bind ?_
    intro a b hb r' hr'
    cases hb
    exact List.mem_append_left _ hr'
  | .binary op s e e', h => by
    rw [Context.expr]
    rcases h with h | ⟨⟨a, ha⟩, h⟩
    · refine (settles_expr h).bind ?_
      intro a b hb r' hr'
      obtain ⟨a', -, hb⟩ := Except.bind_eq_ok.mp hb
      cases hb
      exact List.mem_append_left _ (List.mem_append_left _ hr')
    · refine .after ha ((settles_expr h).bind ?_)
      intro a' b hb r' hr'
      cases hb
      exact List.mem_append_left _ (List.mem_append_right _ hr')
  | .ref q, h => by
    rw [Context.expr]
    refine (settles_ref (q := q) h).bind ?_
    intro a b hb r' hr'
    cases hb
    exact List.mem_append_left _ hr'
  | .index q i s, h => by
    rw [Context.expr]
    rcases h with h | ⟨⟨a, ha⟩, h⟩
    · refine (settles_ref h).bind ?_
      rintro ⟨q₁, d⟩ b hb r' hr'
      obtain ⟨a', -, hb⟩ := Except.bind_eq_ok.mp hb
      cases hb
      exact List.mem_append_left _ (List.mem_append_left _ hr')
    · obtain ⟨q₁, d⟩ := a
      refine .after ha ((settles_expr h).bind ?_)
      intro a' b hb r' hr'
      cases hb
      exact List.mem_append_left _ (List.mem_append_right _ hr')
  | .call q args s, h => by
    rw [Context.expr]
    rcases h with h | ⟨⟨a, ha⟩, h⟩
    · refine (settles_callee h).bind ?_
      intro a b hb r' hr'
      obtain ⟨a', -, hb⟩ := Except.bind_eq_ok.mp hb
      cases hb
      exact List.mem_append_left _ (List.mem_append_left _ hr')
    · refine .after ha ((settles_exprs h).bind ?_)
      intro a' b hb r' hr'
      cases hb
      exact List.mem_append_left _ (List.mem_append_right _ hr')
  | .literal l s, h => h.elim
  | .newObject c s, h => h.elim
  | .newArray t size s, h => by
    rw [Context.expr]
    refine .after h.1 ((settles_expr h.2).bind ?_)
    intro a b hb r' hr'
    cases hb
    exact List.mem_append_left _ hr'

theorem settles_exprs : ∀ {es : List Expr}, ExprsMeet ctx scopes r es →
    Settles (ctx.ref scopes r) (fun x r' => .ref r' ∈ Expr.nodesOf x) (ctx.exprs scopes es)
  | [], h => h.elim
  | e :: es, h => by
    rw [Context.exprs]
    rcases h with h | ⟨⟨a, ha⟩, h⟩
    · refine (settles_expr h).bind ?_
      intro a b hb r' hr'
      obtain ⟨a', -, hb⟩ := Except.bind_eq_ok.mp hb
      cases hb
      exact List.mem_append_left _ hr'
    · refine .after ha ((settles_exprs h).bind ?_)
      intro a' b hb r' hr'
      cases hb
      exact List.mem_append_right _ hr'

end

end Phrases

section Statements

variable {ctx : Context} {scopes : Scopes Meaning} {r : Ref}

theorem Settles.bodyInScope {α β : Type} {found : Except NamingError (Ref × Meaning)}
    {H : α → Ref → Prop} {H' : β → Ref → Prop} {step : Body α} {f : α → Body β} {σ : State}
    (h : Settles found H (outcome (step σ.inner)))
    (hf : ∀ a τ b υ, f a τ = .ok b υ → ∀ r, H a r → H' b r) :
    Settles found H' (outcome ((inScope step >>= f) σ)) := by
  refine Settles.bodyBind ?_ hf
  rw [outcome_inScope]
  exact h

mutual

theorem settles_stmt : ∀ {s : Stmt} {σ : State}, StmtMeets ctx scopes r s σ →
    Settles (ctx.ref scopes r) (fun x r' => .ref r' ∈ x.nodes) (outcome (stmt ctx s σ))
  | .block body span, σ, h => by
    rw [stmt]
    refine Settles.bodyInScope (settles_stmts h) ?_
    intro a τ b υ hb r' hr'
    cases hb
    exact hr'
  | .declare v init span, σ, h => by
    obtain ⟨htype, τ, hτ, rfl, h⟩ := h
    rw [stmt]
    refine .afterReading htype ?_
    rw [EStateM.bind_of_ok hτ]
    refine Settles.bodyReading (settles_expr h) ?_
    intro a τ b υ hb r' hr'
    cases hb
    exact hr'
  | .assign q value span, σ, h => by
    obtain ⟨rfl, h⟩ := h
    rw [stmt]
    rcases h with h | ⟨⟨⟨q₁, d⟩, hq⟩, h⟩
    · refine Settles.bodyReading (settles_ref h) ?_
      rintro ⟨q₁, d⟩ τ b υ hb r' hr'
      obtain ⟨value₁, υ', -, hb⟩ := EStateM.bind_eq_ok.mp hb
      cases hb
      exact List.mem_append_left _ hr'
    · refine .afterReading hq (Settles.bodyReading (settles_expr h) ?_)
      intro a τ b υ hb r' hr'
      cases hb
      exact List.mem_append_right _ hr'
  | .assignIndex q i value span, σ, h => by
    obtain ⟨rfl, h⟩ := h
    rw [stmt]
    rcases h with h | ⟨⟨⟨q₁, d⟩, hq⟩, h | ⟨⟨i₁, hi⟩, h⟩⟩
    · refine Settles.bodyReading (settles_ref h) ?_
      rintro ⟨q₁, d⟩ τ b υ hb r' hr'
      obtain ⟨i₁, υ', -, hb⟩ := EStateM.bind_eq_ok.mp hb
      obtain ⟨value₁, υ'', -, hb⟩ := EStateM.bind_eq_ok.mp hb
      cases hb
      exact List.mem_append_left _ (List.mem_append_left _ hr')
    · refine .afterReading hq (Settles.bodyReading (settles_expr h) ?_)
      intro a τ b υ hb r' hr'
      obtain ⟨value₁, υ', -, hb⟩ := EStateM.bind_eq_ok.mp hb
      cases hb
      exact List.mem_append_left _ (List.mem_append_right _ hr')
    · refine .afterReading hq (.afterReading hi (Settles.bodyReading (settles_expr h) ?_))
      intro a τ b υ hb r' hr'
      cases hb
      exact List.mem_append_right _ hr'
  | .call q args span, σ, h => by
    obtain ⟨rfl, h⟩ := h
    rw [stmt]
    rcases h with h | ⟨⟨q₁, hq⟩, h⟩
    · refine Settles.bodyReading (settles_callee h) ?_
      intro a τ b υ hb r' hr'
      obtain ⟨args₁, υ', -, hb⟩ := EStateM.bind_eq_ok.mp hb
      cases hb
      exact List.mem_append_left _ hr'
    · refine .afterReading hq (Settles.bodyReading (settles_exprs h) ?_)
      intro a τ b υ hb r' hr'
      cases hb
      exact List.mem_append_right _ hr'
  | .ret none span, σ, h => h.elim
  | .ret (some value) span, σ, h => by
    obtain ⟨rfl, h⟩ := h
    rw [stmt]
    refine Settles.bodyReading (settles_expr h) ?_
    intro a τ b υ hb r' hr'
    cases hb
    exact hr'
  | .ifThen cond t span, σ, h => by
    rw [stmt]
    rcases h with ⟨rfl, h⟩ | ⟨⟨cond₁, hcond⟩, h⟩
    · refine Settles.bodyReading (settles_expr h) ?_
      intro a τ b υ hb r' hr'
      obtain ⟨t₁, υ', -, hb⟩ := EStateM.bind_eq_ok.mp hb
      cases hb
      exact List.mem_append_left _ hr'
    · refine .afterReading hcond (Settles.bodyInScope (settles_stmt h) ?_)
      intro a τ b υ hb r' hr'
      cases hb
      exact List.mem_append_right _ hr'
  | .ifElse cond t e span, σ, h => by
    rw [stmt]
    rcases h with ⟨rfl, h⟩ | ⟨⟨cond₁, hcond⟩, h | ⟨t₁, τ, ht, h⟩⟩
    · refine Settles.bodyReading (settles_expr h) ?_
      intro a τ b υ hb r' hr'
      obtain ⟨t₁, υ', -, hb⟩ := EStateM.bind_eq_ok.mp hb
      obtain ⟨e₁, υ'', -, hb⟩ := EStateM.bind_eq_ok.mp hb
      cases hb
      exact List.mem_append_left _ (List.mem_append_left _ hr')
    · refine .afterReading hcond (Settles.bodyInScope (settles_stmt h) ?_)
      intro a τ b υ hb r' hr'
      obtain ⟨e₁, υ', -, hb⟩ := EStateM.bind_eq_ok.mp hb
      cases hb
      exact List.mem_append_left _ (List.mem_append_right _ hr')
    · refine .afterReading hcond ?_
      rw [EStateM.bind_of_ok ht]
      refine Settles.bodyInScope (settles_stmt h) ?_
      intro a τ b υ hb r' hr'
      cases hb
      exact List.mem_append_right _ hr'
  | .loop cond body span, σ, h => by
    rw [stmt]
    rcases h with ⟨rfl, h⟩ | ⟨⟨cond₁, hcond⟩, h⟩
    · refine Settles.bodyReading (settles_expr h) ?_
      intro a τ b υ hb r' hr'
      obtain ⟨t₁, υ', -, hb⟩ := EStateM.bind_eq_ok.mp hb
      cases hb
      exact List.mem_append_left _ hr'
    · refine .afterReading hcond (Settles.bodyInScope (settles_stmt h) ?_)
      intro a τ b υ hb r' hr'
      cases hb
      exact List.mem_append_right _ hr'

theorem settles_stmts : ∀ {ss : List Stmt} {σ : State}, StmtsMeet ctx scopes r ss σ →
    Settles (ctx.ref scopes r) (fun x r' => .ref r' ∈ Stmt.nodesOf x) (outcome (stmts ctx ss σ))
  | [], σ, h => h.elim
  | s :: ss, σ, h => by
    rw [stmts]
    rcases h with h | ⟨s₁, τ, hs, h⟩
    · refine (settles_stmt h).bodyBind ?_
      intro a τ b υ hb r' hr'
      obtain ⟨ss₁, υ', -, hb⟩ := EStateM.bind_eq_ok.mp hb
      cases hb
      exact List.mem_append_left _ hr'
    · rw [EStateM.bind_of_ok hs]
      refine (settles_stmts h).bodyBind ?_
      intro a τ b υ hb r' hr'
      cases hb
      exact List.mem_append_right _ hr'

end

end Statements

section Declarations

variable {ctx : Context} {scopes outer : Scopes Meaning} {r : Ref} {classes : List ClassDecl}

theorem method_of_params {m : Method} {inner : Scopes Meaning}
    (htype : type ctx.classes m.type = .ok ())
    (hparams : params ctx 0 m.params outer.openScope = .ok inner) :
    method ctx outer m = (outcome (stmts ctx m.body ⟨inner, 0⟩) >>= fun body =>
      .ok { m with body }) := by
  unfold method
  rw [htype, Except.ok_bind, hparams, Except.ok_bind]
  cases stmts ctx m.body ⟨inner, 0⟩ <;> rfl

theorem settles_method {m : Method} (h : MethodMeets ctx scopes r outer m) :
    Settles (ctx.ref scopes r) (fun x r' => .ref r' ∈ x.nodes) (method ctx outer m) := by
  obtain ⟨htype, inner, hparams, h⟩ := h
  rw [method_of_params htype hparams]
  refine (settles_stmts h).bind ?_
  intro a b hb r' hr'
  cases hb
  exact hr'

/-- The reference stands in the method of its context, the methods being counted from `k`. -/
def InMethods (ctx : Context) (k : Nat) (ms : List Method) (r : Ref) : Prop :=
  ∃ j m, ms[j]? = some m ∧ ctx.methodIndex = k + j ∧ .ref r ∈ m.nodes

theorem settles_methods {c : String} {i k : Nat} {ms : List Method}
    (h : MethodsMeet ctx scopes r (fun m k => ⟨classes, c, m, i, k⟩) outer k ms) :
    Settles (ctx.ref scopes r) (fun x r' => ctx.classIndex = i ∧ InMethods ctx k x r')
      (methods (fun m k => ⟨classes, c, m, i, k⟩) outer k ms) := by
  induction ms generalizing k with
  | nil => exact h.elim
  | cons m ms ih =>
    rw [methods]
    rcases h with ⟨rfl, h⟩ | ⟨⟨m₁, hm⟩, h⟩
    · refine (settles_method h).bind ?_
      intro a b hb r' hr'
      obtain ⟨ms₁, -, hb⟩ := Except.bind_eq_ok.mp hb
      cases hb
      exact ⟨rfl, 0, a, rfl, rfl, hr'⟩
    · refine .after hm ((ih h).bind ?_)
      rintro a b hb r' ⟨hi, j, m', hj, hk, hr'⟩
      cases hb
      exact ⟨hi, j + 1, m', hj, by omega, hr'⟩

theorem settles_classDecl {i : Nat} {c : ClassDecl}
    (h : ClassMeets ctx scopes r classes outer i c) :
    Settles (ctx.ref scopes r) (fun x r' => ctx.classIndex = i ∧ InMethods ctx 0 x.methods r')
      (classDecl classes outer i c) := by
  obtain ⟨inner, hmembers, hfields, h⟩ := h
  unfold classDecl
  refine .after hmembers (.after hfields ((settles_methods h).bind ?_))
  intro a b hb r' hr'
  cases hb
  exact hr'

theorem settles_classDecls {i : Nat} {cs : List ClassDecl}
    (h : ClassesMeet ctx scopes r classes outer i cs) :
    Settles (ctx.ref scopes r) (fun x r' => ∃ j c, x[j]? = some c ∧ ctx.classIndex = i + j ∧
      InMethods ctx 0 c.methods r')
      (classDecls classes outer i cs) := by
  induction cs generalizing i with
  | nil => exact h.elim
  | cons c cs ih =>
    rw [classDecls]
    rcases h with h | ⟨⟨c₁, hc⟩, h⟩
    · refine (settles_classDecl h).bind ?_
      rintro a b hb r' ⟨hi, hr'⟩
      obtain ⟨cs₁, -, hb⟩ := Except.bind_eq_ok.mp hb
      cases hb
      exact ⟨0, a, rfl, hi, hr'⟩
    · refine .after hc ((ih h).bind ?_)
      rintro a b hb r' ⟨j, c', hj, hi, hr'⟩
      cases hb
      exact ⟨j + 1, c', hj, by omega, hr'⟩

end Declarations

end Resolve

theorem Program.Meets.settles {p : Program} {ctx : Context} {scopes : Scopes Meaning} {r : Ref}
    (h : p.Meets ctx scopes r) :
    Settles (ctx.ref scopes r) (fun q r' => (ctx.classIndex, ctx.methodIndex, .ref r') ∈ q.nodes)
      p.resolve := by
  obtain ⟨outer, hclasses, h⟩ := h
  unfold Program.resolve
  refine .after hclasses ((settles_classDecls h).bind ?_)
  rintro a b hb r' ⟨j, c, hc, hj, j', m, hm, hj', hr'⟩
  cases hb
  rw [Nat.zero_add] at hj hj'
  rw [hj, hj']
  exact Program.mem_nodes hc hm hr'

section Selection

variable {ctx : Context} {scopes : Scopes Meaning} {q : Ident} {x : Ident} {d m : Meaning}
  {cls : String}

theorem Resolve.Context.member_of_variable {r : Ref} {c : ClassDecl}
    (hkind : d.kind = .field ∨ d.kind = .param ∨ d.kind = .var) (hty : d.ty = .cls cls)
    (hc : class? ctx.classes cls = some c) : ctx.member r d x = ctx.classMember r x c := by
  unfold Context.member
  split
  · rcases hkind with hkind | hkind | hkind <;> cases hkind
  · simp only [hty, hc]

theorem Resolve.Context.classMember_of_name {c : ClassDecl} {o : Option Meaning}
    (hm : c.member? x.name = some m) (hseen : m.isPrivate = true → c.name = ctx.owner) :
    ctx.classMember (.name q o) x c =
      if q.name = c.name ∧ m.isInstance = true then refuse (.throughClass x.name c.name) x.span
      else .ok m := by
  have hprivate : (m.isPrivate && c.name != ctx.owner) = false := by
    simpa using hseen
  unfold Context.classMember
  simp only [hm, hprivate, Bool.and_eq_true, beq_iff_eq, Bool.false_eq_true, if_false]

/-- The reference to a member of a variable: it is refused if the variable has the name of its class
and the member is an instance member, and denotes the member otherwise. -/
theorem Resolve.Context.ref_member_of_variable (o o' : Option Meaning)
    (hq : ctx.bareName scopes q = .ok d)
    (hkind : d.kind = .field ∨ d.kind = .param ∨ d.kind = .var) (hty : d.ty = .cls cls)
    (hm : ctx.setting.member? cls x.name = some m) (hseen : m.isPrivate = true → cls = ctx.owner) :
    ctx.ref scopes (.member (.name q o) x o') =
      if q.name = cls ∧ m.isInstance = true then .error ⟨.throughClass x.name cls, x.span, none⟩
      else .ok (.member (.name q (some d)) x (some m), m) := by
  rw [Setting.member?, ctx.setting_class?] at hm
  obtain ⟨head, hhead, hmember⟩ := Option.bind_eq_some_iff.mp hm
  obtain ⟨c, hc, rfl⟩ := Option.map_eq_some_iff.mp hhead
  obtain ⟨-, rfl⟩ := class?_mem hc
  rw [head_member?] at hmember
  rw [Context.ref, Context.ref, hq]
  change (ctx.member (.name q (some d)) d x >>= fun m => _) = _
  rw [Context.member_of_variable hkind hty hc, Context.classMember_of_name hmember hseen]
  split <;> rfl

/-- Member selection goes by what the qualifier denotes, with one exception. Take a reference `q.x`
that resolution meets, where `q` denotes a variable of a class type and `x` names a member of the
class that can be seen. If `q` is spelled like the class and the member belongs to the objects, the
program is refused as if `q` were the class; in all other cases `q.x` denotes the member, and so it
does in the resolved program. -/
theorem Program.selects_unless_spelled_as_class {p : Program} {o o' : Option Meaning}
    (hmet : p.Meets ctx scopes (.member (.name q o) x o')) (hq : ctx.bareName scopes q = .ok d)
    (hkind : d.kind = .field ∨ d.kind = .param ∨ d.kind = .var) (hty : d.ty = .cls cls)
    (hm : ctx.setting.member? cls x.name = some m) (hseen : m.isPrivate = true → cls = ctx.owner) :
    (q.name = cls ∧ m.isInstance = true →
      p.resolve = .error ⟨.throughClass x.name cls, x.span, none⟩) ∧
    (¬ (q.name = cls ∧ m.isInstance = true) →
      ctx.ref scopes (.member (.name q o) x o') = .ok (.member (.name q (some d)) x (some m), m) ∧
      ∀ p', p.resolve = .ok p' →
        (ctx.classIndex, ctx.methodIndex, .ref (.member (.name q (some d)) x (some m))) ∈
          p'.nodes) := by
  have href := Context.ref_member_of_variable o o' hq hkind hty hm hseen
  constructor
  · intro hspelled
    rw [if_pos hspelled] at href
    exact hmet.settles.error_eq href
  · intro hspelled
    rw [if_neg hspelled] at href
    exact ⟨href, fun p' hp' => hmet.settles.holds href hp'⟩

end Selection

namespace SpelledAsClass

/-- The line on which everything stands. -/
def here : Span := .line 1

def field (isStatic : Bool) : Field := ⟨"v", .int here, here, false, isStatic⟩

def args : Variable := ⟨"a", .array (.cls ⟨"String", here⟩) here, here⟩

def entry : Signature := ⟨"main", .void here, here, false, true, [args]⟩

/-- A local that is spelled like its class. -/
def homonym : Variable := ⟨"A", .cls ⟨"A", here⟩, here⟩

/-- The field of the local, with the meanings of both if these are known. -/
def selection (d m : Option Meaning) : Ref := .member (.name ⟨"A", here⟩ d) ⟨"v", here⟩ m

/-- `class A { int v; public static void main(String[] a) { A A = new A(); A.v = 3; } }`, or the
same with a static field. -/
def program (isStatic : Bool) : Program :=
  { span := here
    classes := [{
      id := ⟨"A", here⟩, span := here, fields := [field isStatic]
      methods := [{ entry with
        body := [
          .declare homonym (.newObject ⟨"A", here⟩ here) here,
          .assign (selection none none) (.literal (.int "3") here) here] }] }] }

def context (isStatic : Bool) : Context := ⟨(program isStatic).allClasses, "A", entry, 0, 0⟩

/-- The scopes at the assignment. -/
def scopes (isStatic : Bool) : Scopes Meaning :=
  ⟨[[("A", .localVar 0 homonym), ("a", .param 0 args)],
    [("main", .method "A" entry), ("v", .field "A" (field isStatic))],
    ("A", .cls "A") :: (Library.classes.map fun c => (c.name, .cls c.name)).reverse], none⟩

theorem meets (isStatic : Bool) :
    (program isStatic).Meets (context isStatic) (scopes isStatic) (selection none none) :=
  ⟨_, rfl,
    .inl ⟨_, rfl, rfl, .inl ⟨rfl, rfl, _, rfl, .inr ⟨_, _, rfl, .inl ⟨rfl, .inl (.inl rfl)⟩⟩⟩⟩⟩

/-- The static field is selected in spite of the spelling. -/
theorem static_selected :
    (program true).Meets (context true) (scopes true) (selection none none) ∧
      (context true).ref (scopes true) (selection none none) =
        .ok (selection (some (.localVar 0 homonym)) (some (.field "A" (field true))),
          .field "A" (field true)) :=
  ⟨meets true,
    ((Program.selects_unless_spelled_as_class (meets true) rfl (.inr (.inr rfl)) rfl rfl
    (by decide)).2 (by decide)).1⟩

/-- The instance field of a variable is refused, though its qualifier denotes no class. -/
theorem instance_refused :
    (program false).Meets (context false) (scopes false) (selection none none) ∧
      (context false).bareName (scopes false) ⟨"A", here⟩ = .ok (.localVar 0 homonym) ∧
      homonym.type.ty = .cls "A" ∧
      (context false).setting.member? "A" "v" = some (.field "A" (field false)) ∧
      (program false).resolve = .error ⟨.throughClass "v" "A", here, none⟩ :=
  ⟨meets false, rfl, rfl, rfl, rfl⟩

end SpelledAsClass

end MiniJava
