import MiniJava.Proofs.Generate.Emission
import MiniJava.Proofs.Places.Erase
/-!
Code does not hang on lines: a program without lines has the code of the program.
-/
namespace MiniJava

/-! ### Places of fields -/

theorem ClassLayout.place_shape (statics size : Nat) (fs : List Field) :
    place statics size (fs.map Field.shape) = place statics size fs := by
  induction fs generalizing statics size with
  | nil => rfl
  | cons f fs ih =>
    have hstatic : f.shape.isStatic = f.isStatic := rfl
    have hname : f.shape.name = f.name := rfl
    rw [List.map_cons, place, place, hstatic, hname, ih, ih]

theorem ClassLayout.of_erase (statics : Nat)
    (c : ClassDecl) : of statics c.erase = of statics c := by
  have hsize : (c.fields.map Field.shape).countP (!·.isStatic) = c.fields.countP (!·.isStatic) :=
    List.countP_map
  rw [of, of, ClassDecl.erase, place_shape, hsize]
  rfl

theorem ClassLayouts.of_erase (statics : Nat) (cs : List ClassDecl) :
    of statics (cs.map ClassDecl.erase) = of statics cs := by
  induction cs generalizing statics with
  | nil => rfl
  | cons c cs ih =>
    have hstatics : c.erase.staticCount = c.staticCount := List.countP_map
    rw [List.map_cons, of, of, ClassLayout.of_erase, hstatics, ih]

namespace Generate

variable (classes : ClassLayouts) (frame : Frame)

/-! ### Phrases -/

theorem ref_erase (r : Ref) : ref classes frame r.erase = ref classes frame r := by
  induction r with
  | this s d => rfl
  | name id d => rcases d with _ | (_ | _ | _ | _ | _ | _) <;> rfl
  | member q id d ih =>
    rcases d with _ | (_ | ⟨owner, f⟩ | _ | _ | _ | _)
    case some.length => simp only [Ref.erase, Option.map_some, Meaning.erase, ref, ih]
    case some.field =>
      -- A field of `this` is reached without its object.
      cases q with
      | this s d => rfl
      | name | member =>
        simp only [Ref.erase, Option.map_some, Meaning.erase] at ih ⊢
        simp only [ref, ih]
        rfl
    all_goals simp only [Ref.erase, Option.map_some, Option.map_none, Meaning.erase, ref]

theorem receiver_erase (r : Ref) : receiver classes frame r.erase = receiver classes frame r := by
  cases r with
  | this | name => rfl
  | member q id d => exact ref_erase classes frame q

theorem invoke_erase (r : Ref) (owner : String) (m : Signature) :
    invoke classes frame r.erase owner m.shape = invoke classes frame r owner m := by
  have hprintln : isPrintln owner m.shape = isPrintln owner m := rfl
  have hstatic : m.shape.isStatic = m.isStatic := rfl
  have hname : m.shape.name = m.name := rfl
  rw [invoke, invoke, hprintln, hstatic, hname, receiver_erase]

theorem method_erase (r : Ref) : method r.erase = (fun x => (x.1, x.2.shape)) <$> method r := by
  rw [method, method, r.meaning_erase]
  rcases r.meaning with _ | (_ | _ | _ | _ | _ | _) <;> rfl

mutual

theorem expr_erase (start : Nat) :
    ∀ e : Expr, expr classes frame start e.erase = expr classes frame start e
  | .unary op s e => by rw [Expr.erase, expr, expr, expr_erase start e]
  | .binary op s l r => by
    have hright (n : Nat) : expr classes frame n r.erase = expr classes frame n r := expr_erase n r
    rw [Expr.erase, expr, expr, expr_erase start l]
    simp only [hright]
  | .ref r => by rw [Expr.erase, expr, expr, ref_erase]
  | .index r i s => by
    have hindex (n : Nat) : expr classes frame n i.erase = expr classes frame n i := expr_erase n i
    rw [Expr.erase, expr, expr, ref_erase]
    simp only [hindex]
  | .call r args s => by
    rw [Expr.erase, expr, expr, method_erase, exprs_erase start args]
    rcases method r with _ | ⟨owner, m⟩
    · rfl
    · simp only [Except.map_ok, Except.ok_bind, invoke_erase]
  | .literal l s => by rw [Expr.erase, expr, expr]
  | .newObject c s => by rw [Expr.erase, expr, expr, Ident.name_shape]
  | .newArray t size s => by rw [Expr.erase, expr, expr, expr_erase start size, TypeName.ty_shape]

theorem exprs_erase (start : Nat) : ∀ es : List Expr,
    exprs classes frame start (Expr.eraseAll es) = exprs classes frame start es
  | [] => by rw [Expr.eraseAll]
  | e :: es => by
    have hrest (n : Nat) : exprs classes frame n (Expr.eraseAll es) = exprs classes frame n es :=
      exprs_erase n es
    rw [Expr.eraseAll, exprs, exprs, expr_erase start e]
    simp only [hrest]

end

theorem assign_erase (start : Nat) (value : Expr) (r : Ref) :
    assign classes frame start value.erase r.erase = assign classes frame start value r := by
  have hvalue (n : Nat) : expr classes frame n value.erase = expr classes frame n value :=
    expr_erase classes frame n value
  cases r with
  | this s d => rfl
  | name id d =>
    rcases d with _ | (_ | _ | _ | _ | _ | _) <;>
      simp only [Ref.erase, Option.map_some, Option.map_none, Meaning.erase, assign, hvalue] <;> rfl
  | member q id d =>
    have hobject := ref_erase classes frame q
    rcases d with _ | (_ | ⟨owner, f⟩ | _ | _ | _ | _)
    case some.field =>
      cases q with
      | this s d =>
        simp only [Ref.erase, Option.map_some, Meaning.erase, assign, hvalue]
        rfl
      | name | member =>
        simp only [Ref.erase, Option.map_some, Meaning.erase] at hobject ⊢
        simp only [assign, hvalue, hobject]
        rfl
    all_goals cases q <;> rfl

theorem dropResult_shape (m : Signature) : dropResult m.shape = dropResult m := by
  have hresult : m.shape.type.ty = m.type.ty := TypeName.ty_shape _
  rw [dropResult, dropResult, hresult]

mutual

theorem stmt_erase (start : Nat) (frame : Frame) : ∀ s : Stmt,
    stmt classes start frame s.erase = stmt classes start frame s
  | .block body s => by rw [Stmt.erase, stmt, stmt, stmts_erase start frame body]
  | .declare v init s => by rw [Stmt.erase, stmt, stmt, expr_erase]
  | .assign r value s => by rw [Stmt.erase, stmt, stmt, assign_erase]
  | .assignIndex r i value s => by
    rw [Stmt.erase, stmt, stmt, ref_erase]
    simp only [expr_erase]
  | .call r args s => by
    rw [Stmt.erase, stmt, stmt, method_erase, exprs_erase]
    rcases method r with _ | ⟨owner, m⟩
    · rfl
    · simp only [Except.map_ok, Except.ok_bind, invoke_erase, dropResult_shape]
  | .ret none s => by rw [Stmt.erase, stmt, stmt]
  | .ret (some value) s => by rw [Stmt.erase, stmt, stmt, expr_erase]
  | .ifThen cond t s => by
    have ht (n : Nat) (f : Frame) : stmt classes n f t.erase = stmt classes n f t :=
      stmt_erase n f t
    rw [Stmt.erase, stmt, stmt, expr_erase]
    simp only [ht]
  | .ifElse cond t e s => by
    have ht (n : Nat) (f : Frame) : stmt classes n f t.erase = stmt classes n f t :=
      stmt_erase n f t
    have he (n : Nat) (f : Frame) : stmt classes n f e.erase = stmt classes n f e :=
      stmt_erase n f e
    rw [Stmt.erase, stmt, stmt, expr_erase]
    simp only [ht, he]
  | .loop cond body s => by
    rw [Stmt.erase, stmt, stmt, stmt_erase _ frame body]
    simp only [expr_erase]

theorem stmts_erase (start : Nat) (frame : Frame) : ∀ ss : List Stmt,
    stmts classes start frame (Stmt.eraseAll ss) = stmts classes start frame ss
  | [] => by rw [Stmt.eraseAll]
  | s :: ss => by
    have hrest (n : Nat) (f : Frame) :
        stmts classes n f (Stmt.eraseAll ss) = stmts classes n f ss := stmts_erase n f ss
    rw [Stmt.eraseAll, stmts, stmts, stmt_erase start frame s]
    simp only [hrest]

end

/-! ### Programs -/

theorem closing_erase (m : Method) : closing m.erase = closing m := by
  have hlast : m.erase.body.getLast? = m.body.getLast?.map Stmt.erase := by
    rw [Method.erase, Stmt.eraseAll_eq_map, List.getLast?_map]
  have hparams : m.erase.params.length = m.params.length := List.length_map _
  rw [closing, closing, hlast, hparams]
  rcases m.body.getLast? with _ | s
  · rfl
  · cases s with
    | ret value s => cases value <;> simp only [Option.map_some, Stmt.erase]
    | block | declare | assign | assignIndex | call | ifThen | ifElse | loop =>
      simp only [Option.map_some, Stmt.erase]

theorem methodCode_erase (start : Nat) (owner : String) (m : Method) :
    methodCode classes start owner m.erase = methodCode classes start owner m := by
  have hparams : m.erase.params.length = m.params.length := List.length_map _
  have hbody : m.erase.body = Stmt.eraseAll m.body := rfl
  have hname : m.erase.name = m.name := rfl
  rw [methodCode, methodCode, hparams, hbody, stmts_erase, closing_erase, hname]

theorem methodCodes_erase (start : Nat) (ms : List (String × Method)) :
    methodCodes classes start (ms.map fun x => (x.1, x.2.erase)) =
      methodCodes classes start ms := by
  induction ms generalizing start with
  | nil => rfl
  | cons x ms ih =>
    obtain ⟨owner, m⟩ := x
    rw [List.map_cons, methodCodes, methodCodes, methodCode_erase]
    simp only [ih]

end Generate

namespace Program

open Generate

variable (p : Program)

theorem methods_erase : p.erase.methods = p.methods.map fun x => (x.1, x.2.erase) := by
  rw [methods, methods, erase, List.flatMap_map, List.map_flatMap]
  congr 1
  funext c
  rw [ClassDecl.erase, List.map_map, List.map_map]
  rfl

theorem classLayouts_erase : p.erase.classLayouts = p.classLayouts := by
  rw [classLayouts, classLayouts, allClasses_erase, ClassLayouts.of_erase]

theorem staticCount_erase : p.erase.staticCount = p.staticCount := by
  have hstatics : (p.allClasses.map ClassDecl.erase).flatMap (·.fields.filter (·.isStatic)) =
      (p.allClasses.flatMap (·.fields.filter (·.isStatic))).map Field.shape := by
    rw [List.flatMap_map, List.map_flatMap]
    congr 1
    funext c
    rw [ClassDecl.erase, List.filter_map]
    rfl
  rw [staticCount, staticCount, allClasses_erase, hstatics, List.length_map]

theorem generate_erase (entry : Option MethodKey) : p.erase.generate entry = p.generate entry := by
  cases entry with
  | none => rfl
  | some entry =>
    rw [generate_eq_link, generate_eq_link, draft, draft, staticCount_erase, classLayouts_erase,
      methods_erase, methodCodes_erase]

end Program

end MiniJava
