import MiniJava.Proofs.Places.Erase
import MiniJava.Typing.Check
/-!
Types do not hang on lines: checking a program without lines finds the same faults in the same order
and the same entry method.
-/
namespace MiniJava

namespace Checked

variable {α β α' β' : Type}

/-- `y` gives the value of `x`, changed by `f`, and reports the same faults. -/
def Blind (f : α → β) (x : Checked α) (y : Checked β) : Prop :=
  y.value = f x.value ∧ y.errors.map TypeError.fault = x.errors.map TypeError.fault

namespace Blind

theorem pure {f : α → β} {a : α} {b : β} (hb : b = f a) : Blind f (Pure.pure a) (Pure.pure b) :=
  ⟨hb, rfl⟩

theorem bind {f : α → β} {f' : α' → β'} {x : Checked α} {y : Checked β} {k : α → Checked α'}
    {k' : β → Checked β'} (hx : Blind f x y)
    (hk : ∀ a, Blind f' (k a) (k' (f a))) : Blind f' (x >>= k) (y >>= k') := by
  obtain ⟨hvalue, herrors⟩ := hx
  obtain ⟨hvalue', herrors'⟩ := hk x.value
  rw [← hvalue] at hvalue' herrors'
  refine ⟨hvalue', ?_⟩
  change (y.errors ++ (k' y.value).errors).map TypeError.fault =
    (x.errors ++ (k x.value).errors).map TypeError.fault
  rw [List.map_append, List.map_append, herrors, herrors']

theorem report (span span' : Span) (fault : TypeFault) :
    Blind id (report span fault) (report span' fault) :=
  ⟨rfl, rfl⟩

theorem wrong (span span' : Span) (fault : TypeFault) :
    Blind id (wrong span fault) (wrong span' fault) :=
  ⟨rfl, rfl⟩

theorem record (n n' : Node) (t : Ty) : Blind id (record n t) (record n' t) := ⟨rfl, rfl⟩

end Blind

end Checked

namespace Check

open Checked

/-! ### References -/

theorem refTy_erase (r : Ref) : refTy r.erase = refTy r := by
  rw [refTy, refTy, r.meaning_erase, Option.map_map]
  congr
  funext d
  exact d.ty_erase

theorem blind_ref (r : Ref) : Blind id (ref r) (ref r.erase) := by
  induction r with
  | this s d =>
    have hty := refTy_erase (.this s d)
    rw [Ref.erase] at hty ⊢
    rw [ref, ref, hty]
    exact .record _ _ _
  | name id d =>
    have hty := refTy_erase (.name id d)
    rw [Ref.erase] at hty ⊢
    rw [ref, ref, hty]
    exact .record _ _ _
  | member q id d ih =>
    have hty := refTy_erase (.member q id d)
    rw [Ref.erase] at hty ⊢
    rw [ref, ref, hty]
    exact ih.bind fun _ => .record _ _ _

theorem blind_valueRef (r : Ref) : Blind id (valueRef r) (valueRef r.erase) := by
  refine (blind_ref r).bind fun t => ?_
  cases r with
  | this s d => rcases d with _ | (_ | _ | _ | _ | _ | _) <;> exact ⟨rfl, rfl⟩
  | name id d => rcases d with _ | (_ | _ | _ | _ | _ | _) <;> exact ⟨rfl, rfl⟩
  | member q id d => rcases d with _ | (_ | _ | _ | _ | _ | _) <;> exact ⟨rfl, rfl⟩

theorem blind_target (r : Ref) : Blind id (target r) (target r.erase) := by
  refine (blind_ref r).bind fun t => ?_
  cases r with
  | this s d => rcases d with _ | (_ | _ | _ | _ | _ | _) <;> exact ⟨rfl, rfl⟩
  | name id d => rcases d with _ | (_ | _ | _ | _ | _ | _) <;> exact ⟨rfl, rfl⟩
  | member q id d => rcases d with _ | (_ | _ | _ | _ | _ | _) <;> exact ⟨rfl, rfl⟩

theorem blind_indexed (r : Ref) : Blind id (indexed r) (indexed r.erase) := by
  refine (blind_valueRef r).bind fun t => ?_
  cases t <;> exact ⟨rfl, rfl⟩

/-! ### Rules for types -/

theorem blind_store (t t' : Ty) (span span' : Span) :
    Blind id (store t t' span) (store t t' span') := by
  rw [store, store]
  split
  · exact .pure rfl
  · exact .report _ _ _

theorem blind_expect (what : String) (t t' : Ty) (span span' : Span) :
    Blind id (expect what t t' span) (expect what t t' span') := by
  rw [expect, expect]
  split
  · exact .pure rfl
  · exact .report _ _ _

theorem blind_unary (op : UnaryOp) (t : Ty) (span span' : Span) :
    Blind id (unary op t span) (unary op t span') := by
  rw [unary, unary]
  split
  · exact .pure rfl
  · split
    · exact .pure rfl
    · exact .wrong _ _ _

theorem blind_binary (op : BinaryOp) (l r : Ty) (span span' : Span) :
    Blind id (binary op l r span) (binary op l r span') := by
  rw [binary, binary]
  split
  · exact .pure rfl
  · split
    · split
      · exact .pure rfl
      · exact .wrong _ _ _
    · split
      · exact .pure rfl
      · exact .wrong _ _ _

/-- Arguments with their types, without lines. -/
def eraseTyped (args : List (Expr × Ty)) : List (Expr × Ty) := args.map fun x => (x.1.erase, x.2)

theorem blind_arguments (m : Signature) (i : Nat) (vs : List Variable) (args : List (Expr × Ty)) :
    Blind id (arguments m i vs args)
      (arguments m.shape i (vs.map Variable.shape) (eraseTyped args)) := by
  have hresult : m.shape.type.ty = m.type.ty := TypeName.ty_shape _
  induction vs generalizing i args with
  | nil => exact .pure hresult
  | cons v vs ih =>
    cases args with
    | nil => exact .pure hresult
    | cons x args =>
      obtain ⟨e, t⟩ := x
      have hparam : v.shape.type.ty = v.type.ty := TypeName.ty_shape _
      rw [eraseTyped, List.map_cons, List.map_cons, arguments, arguments, hparam]
      split
      · exact .pure rfl
      · split
        · exact ih (i + 1) args
        · exact .wrong _ _ _

theorem blind_call (r : Ref) (args : List (Expr × Ty)) (span span' : Span) :
    Blind id (call r args span) (call r.erase (eraseTyped args) span') := by
  rw [call, call, r.meaning_erase, r.lastName_erase]
  rcases r.meaning with _ | (_ | _ | ⟨owner, m⟩ | _ | _ | _)
  case some.method =>
    have hparams : m.shape.params.length = m.params.length := List.length_map _
    have hargs : (eraseTyped args).length = args.length := List.length_map _
    simp only [Option.map_some, Meaning.erase, hparams, hargs]
    split
    · exact blind_arguments m 1 m.params args
    · exact .wrong _ _ _
  all_goals exact .wrong _ _ _

/-! ### Expressions and statements -/

mutual

theorem blind_expr : ∀ e : Expr, Blind id (expr e) (expr e.erase)
  | .unary op s e => by
    rw [Expr.erase, expr, expr]
    exact (blind_expr e).bind fun _ => (blind_unary _ _ _ _).bind fun _ => .record _ _ _
  | .binary op s l r => by
    rw [Expr.erase, expr, expr]
    exact (blind_expr l).bind fun _ => (blind_expr r).bind fun _ =>
      (blind_binary _ _ _ _ _).bind fun _ => .record _ _ _
  | .ref r => by
    rw [Expr.erase, expr, expr]
    exact (blind_valueRef r).bind fun _ => .record _ _ _
  | .index r i s => by
    rw [Expr.erase, expr, expr]
    exact (blind_indexed r).bind fun _ => (blind_expr i).bind fun _ =>
      (blind_expect _ _ _ _ _).bind fun _ =>
      .record _ _ _
  | .call r args s => by
    rw [Expr.erase, expr, expr]
    exact (blind_ref r).bind fun _ => (blind_exprs args).bind fun typed =>
      (blind_call r typed _ _).bind fun _ =>
      .record _ _ _
  | .literal l s => by
    rw [Expr.erase, expr, expr]
    exact .record _ _ _
  | .newObject c s => by
    rw [Expr.erase, expr, expr]
    exact .record _ _ _
  | .newArray t size s => by
    rw [Expr.erase, expr, expr, TypeName.ty_shape]
    exact (blind_expr size).bind fun _ => (blind_expect _ _ _ _ _).bind fun _ => .record _ _ _

theorem blind_exprs : ∀ es : List Expr, Blind eraseTyped (exprs es) (exprs (Expr.eraseAll es))
  | [] => by
    rw [Expr.eraseAll, exprs]
    exact .pure rfl
  | e :: es => by
    rw [Expr.eraseAll, exprs, exprs]
    exact (blind_expr e).bind fun _ => (blind_exprs es).bind fun _ => .pure rfl

end

theorem blind_branch (s : Stmt) : Blind id (branch s) (branch s.erase) := by
  cases s with
  | declare v init s =>
    rw [Stmt.erase, branch, branch]
    exact .report _ _ _
  | ret value s => cases value <;> (rw [Stmt.erase]; exact .pure rfl)
  | block | assign | assignIndex | call | ifThen | ifElse | loop =>
    rw [Stmt.erase]
    exact .pure rfl

mutual

theorem blind_stmt (m : Signature) : ∀ s : Stmt, Blind id (stmt m s) (stmt m.shape s.erase)
  | .block body s => by
    rw [Stmt.erase, stmt, stmt]
    exact blind_stmts m body
  | .declare v init s => by
    have htype : v.shape.type.ty = v.type.ty := TypeName.ty_shape _
    rw [Stmt.erase, stmt, stmt, htype]
    exact (blind_expr init).bind fun _ => blind_store _ _ _ _
  | .assign r value s => by
    rw [Stmt.erase, stmt, stmt]
    exact (blind_target r).bind fun _ => (blind_expr value).bind fun _ => blind_store _ _ _ _
  | .assignIndex r i value s => by
    rw [Stmt.erase, stmt, stmt]
    exact (blind_indexed r).bind fun _ => (blind_expr i).bind fun _ =>
      (blind_expect _ _ _ _ _).bind fun _ =>
      (blind_expr value).bind fun _ => blind_store _ _ _ _
  | .call r args s => by
    rw [Stmt.erase, stmt, stmt]
    exact (blind_ref r).bind fun _ => (blind_exprs args).bind fun typed =>
      (blind_call r typed _ _).bind fun _ => .pure rfl
  | .ret none s => by
    have hresult : m.shape.type.ty = m.type.ty := TypeName.ty_shape _
    rw [Stmt.erase, stmt, stmt, hresult]
    split
    · exact .pure rfl
    · exact .report _ _ _
  | .ret (some value) s => by
    have hresult : m.shape.type.ty = m.type.ty := TypeName.ty_shape _
    rw [Stmt.erase, stmt, stmt, hresult]
    refine (blind_expr value).bind fun t => ?_
    split
    · exact .report _ _ _
    · exact blind_store _ _ _ _
  | .ifThen cond t s => by
    rw [Stmt.erase, stmt, stmt]
    exact (blind_expr cond).bind fun _ => (blind_expect _ _ _ _ _).bind fun _ =>
      (blind_branch t).bind fun _ =>
      blind_stmt m t
  | .ifElse cond t e s => by
    rw [Stmt.erase, stmt, stmt]
    exact (blind_expr cond).bind fun _ => (blind_expect _ _ _ _ _).bind fun _ =>
      (blind_branch t).bind fun _ =>
      (blind_stmt m t).bind fun _ => (blind_branch e).bind fun _ => blind_stmt m e
  | .loop cond body s => by
    rw [Stmt.erase, stmt, stmt]
    exact (blind_expr cond).bind fun _ => (blind_expect _ _ _ _ _).bind fun _ =>
      (blind_branch body).bind fun _ =>
      blind_stmt m body

theorem blind_stmts (m : Signature) :
    ∀ ss : List Stmt, Blind id (stmts m ss) (stmts m.shape (Stmt.eraseAll ss))
  | [] => by
    rw [Stmt.eraseAll, stmts]
    exact .pure rfl
  | s :: ss => by
    rw [Stmt.eraseAll, stmts, stmts]
    exact (blind_stmt m s).bind fun _ => blind_stmts m ss

end

/-! ### Programs -/

theorem blind_ending (m : Method) : Blind id (ending m) (ending m.erase) := by
  have hresult : m.erase.type.ty = m.type.ty := TypeName.ty_shape _
  have hlast : m.erase.body.getLast? = m.body.getLast?.map Stmt.erase := by
    rw [Method.erase, Stmt.eraseAll_eq_map, List.getLast?_map]
  rw [ending, ending, hresult, hlast]
  split
  · exact .pure rfl
  · rcases m.body.getLast? with _ | s
    · exact .report _ _ _
    · cases s with
      | ret value s => cases value <;> (simp only [Option.map_some, Stmt.erase]; exact .pure rfl)
      | block | declare | assign | assignIndex | call | ifThen | ifElse | loop =>
        simp only [Option.map_some, Stmt.erase]
        exact .report _ _ _

theorem blind_methods (ms : List Method) :
    Blind id (methods ms) (methods (ms.map Method.erase)) := by
  induction ms with
  | nil => exact .pure rfl
  | cons m ms ih =>
    have hmethod : Blind id (method m) (method m.erase) :=
      (blind_stmts m.toSignature m.body).bind fun _ => blind_ending m
    exact hmethod.bind fun _ => ih

theorem blind_classes (cs : List ClassDecl) :
    Blind id (classes cs) (classes (cs.map ClassDecl.erase)) := by
  induction cs with
  | nil => exact .pure rfl
  | cons c cs ih => exact (blind_methods c.methods).bind fun _ => ih

end Check

theorem Signature.isMain_shape (m : Signature) : m.shape.isMain = m.isMain := by
  have hresult : m.shape.type.ty = m.type.ty := TypeName.ty_shape _
  have hparams : m.shape.params.map (·.type.ty) = m.params.map (·.type.ty) := by
    rw [shape, List.map_map]
    exact List.map_congr_left fun v _ => TypeName.ty_shape v.type
  rw [isMain, isMain, hresult, hparams]
  rfl

namespace Program

variable (p : Program)

theorem mains_erase : p.erase.mains = p.mains.map fun x => (x.1, x.2.shape) := by
  rw [mains, mains, erase, List.flatMap_map, List.map_flatMap]
  congr 1
  funext c
  have hmain : ((fun m : Method => m.isMain) ∘ Method.erase) = fun m => m.isMain := by
    funext m
    exact m.toSignature.isMain_shape
  rw [ClassDecl.erase, List.filter_map, hmain, List.map_map, List.map_map]
  rfl

theorem entry_check_erase : p.erase.check.entry = p.check.entry := by
  rw [check, check, mains_erase]
  rcases p.mains with _ | ⟨main, others⟩ <;> rfl

theorem faults_check_erase :
    p.erase.check.errors.map TypeError.fault = p.check.errors.map TypeError.fault := by
  obtain ⟨-, hclasses⟩ := Check.blind_classes p.classes
  rw [check, check, mains_erase]
  rcases p.mains with _ | ⟨main, _ | ⟨second, others⟩⟩
  · rfl
  · exact hclasses
  · exact congrArg (TypeFault.manyMains :: ·) hclasses

end Program

end MiniJava
