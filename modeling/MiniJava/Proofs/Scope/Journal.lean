import MiniJava.Compile
import MiniJava.Proofs.Scope.Duplicates
/-!
The journal of resolving names. A refusal writes exactly one report, and a flag exactly if a
declaration is refused as the second of its name; what is accepted writes nothing.
-/
namespace MiniJava.Resolve

def Journal.refused (j : Journal) (e : NamingError) : Journal :=
  ⟨j.reports ++ [e.message], j.flagged ++ e.duplicate.toList⟩

namespace Logged

variable {α β : Type}

/-- A verdict, with its error written into the journal. -/
def judged (x : Except NamingError α) : Logged α := fun j =>
  match x with
  | .ok a => .ok a j
  | .error e => .error e (j.refused e)

@[simp]
theorem judged_pure (a : α) : judged (pure a) = pure a := rfl

@[simp]
theorem judged_ok (a : α) : judged (.ok a) = pure a := rfl

@[simp]
theorem judged_bind (x : Except NamingError α) (f : α → Except NamingError β) :
    judged (x >>= f) = judged x >>= fun a => judged (f a) := by
  cases x <;> rfl

@[simp]
theorem judged_map (f : α → β) (x : Except NamingError α) : judged (f <$> x) = f <$> judged x := by
  cases x <;> rfl

@[simp]
theorem judged_refuse (fault : NamingFault) (span : Span) :
    (judged (refuse fault span) : Logged α) = report ⟨fault, span, none⟩ := by
  funext j
  simp [judged, refuse, report, Journal.refused]

theorem heed_eq {x : Except NamingError α}
    (h : FailsWith NamingError.Plain x) : heed x = judged x := by
  funext j
  cases x with
  | ok a => rfl
  | error e => simp [heed, report, judged, Journal.refused, (h e rfl).duplicate]

theorem enter_of_some {name : String} {d : Meaning} {fault : NamingFault} {span : Span}
    {site : Site} {scopes inner : Scopes Meaning} (h : scopes.enter name d = .ok (some inner)) :
    enter name d fault span site scopes = pure inner := by
  rw [enter, h]

theorem enter_of_refused {name : String} {d : Meaning} {fault : NamingFault} {span : Span}
    {site : Site} {scopes : Scopes Meaning} (h : ∀ inner, scopes.enter name d ≠ .ok (some inner)) :
    enter name d fault span site scopes = judged (.error ⟨fault, span, some site⟩) := by
  unfold enter
  split
  · rename_i inner hinner
    exact absurd hinner (h inner)
  · rfl

section Phrases

variable (ctx : Context) (scopes : Scopes Meaning)

theorem ref_eq (r : Ref) : ref ctx scopes r = judged (ctx.ref scopes r) := by
  induction r with
  | this span d =>
    rw [ref, Context.ref]
    split
    · simp
    · rfl
  | name id d => simp [ref, Context.ref, heed_eq (plain_bareName ctx scopes id)]
  | member q id d ih => simp [ref, Context.ref, ih, heed_eq (plain_member ctx _ _ id)]

theorem callee_eq (r : Ref) : callee ctx scopes r = judged (ctx.callee scopes r) := by
  cases r with
  | this span d => simp [callee, Context.callee]
  | name id d => simp [callee, Context.callee, heed_eq (plain_bareCall ctx scopes id)]
  | member q id d =>
    rw [callee, Context.callee, ref_eq, judged_bind]
    congr 1
    funext x
    obtain ⟨r, d⟩ := x
    cases d <;> simp

mutual

theorem expr_eq : ∀ e : Expr, expr ctx scopes e = judged (ctx.expr scopes e)
  | .unary op s e => by simp [expr, Context.expr, expr_eq e]
  | .binary op s l r => by simp [expr, Context.expr, expr_eq l, expr_eq r]
  | .ref r => by simp [expr, Context.expr, ref_eq]
  | .index r i s => by simp [expr, Context.expr, ref_eq, expr_eq i]
  | .call r args s => by simp [expr, Context.expr, callee_eq, exprs_eq args]
  | .literal l s => by simp [expr, Context.expr]
  | .newObject c s => by simp [expr, Context.expr, heed_eq (plain_type ctx.classes _)]
  | .newArray t size s =>
    by simp [expr, Context.expr, heed_eq (plain_type ctx.classes t), expr_eq size]

theorem exprs_eq : ∀ es : List Expr, exprs ctx scopes es = judged (ctx.exprs scopes es)
  | [] => by simp [exprs, Context.exprs]
  | e :: es => by simp [exprs, Context.exprs, expr_eq e, exprs_eq es]

end

end Phrases

/-- A step of a body, with its error written into the journal. -/
def judgedBody (step : Resolve.Body α) : Body α := fun s j =>
  match step s with
  | .ok a t => .ok (a, t) j
  | .error e _ => .error e (j.refused e)

@[simp]
theorem judgedBody_pure (a : α) : judgedBody (pure a) = pure a := rfl

@[simp]
theorem judgedBody_bind (step : Resolve.Body α) (next : α → Resolve.Body β) :
    judgedBody (step >>= next) = judgedBody step >>= fun a => judgedBody (next a) := by
  funext s j
  simp only [judgedBody, bind, EStateM.bind, StateT.bind]
  cases step s <;> rfl

@[simp]
theorem judgedBody_map (f : α → β) (step : Resolve.Body α) :
    judgedBody (f <$> step) = f <$> judgedBody step := by
  rw [← bind_pure_comp, ← bind_pure_comp, judgedBody_bind]
  rfl

@[simp]
theorem reading_judged (f : Scopes Meaning → Except NamingError α) :
    reading (fun scopes => judged (f scopes)) = judgedBody (Resolve.reading f) := by
  funext s j
  simp only [reading, Resolve.reading, judgedBody, judged, bind, EStateM.bind]
  cases f s.scopes <;> rfl

@[simp]
theorem inScope_judgedBody (step : Resolve.Body α) :
    inScope (judgedBody step) = judgedBody (Resolve.inScope step) := by
  funext s j
  simp only [inScope, Resolve.inScope, judgedBody, bind, EStateM.bind]
  cases step { s with scopes := s.scopes.openScope } <;> rfl

section Statements

variable (ctx : Context)

theorem declareLocal_eq (v : Variable) :
    declareLocal ctx v = judgedBody (Resolve.declareLocal ctx v) := by
  funext s j
  rw [declareLocal, judgedBody, Resolve.declareLocal]
  rcases h : s.scopes.enter v.name (.localVar s.locals v) with _ | _ | inner
  · rw [enter_of_refused (by simp [h])]
    rfl
  · rw [enter_of_refused (by simp [h])]
    rfl
  · rw [enter_of_some h]
    rfl

mutual

theorem stmt_eq : ∀ s : Stmt, stmt ctx s = judgedBody (Resolve.stmt ctx s)
  | .block body s => by simp [stmt, Resolve.stmt, stmts_eq body]
  | .declare v init s => by
    simp [stmt, Resolve.stmt, heed_eq (plain_type ctx.classes v.type), declareLocal_eq, initializer,
      Resolve.initializer, expr_eq]
  | .assign r value s => by simp [stmt, Resolve.stmt, ref_eq, expr_eq]
  | .assignIndex r i value s => by simp [stmt, Resolve.stmt, ref_eq, expr_eq]
  | .call r args s => by simp [stmt, Resolve.stmt, callee_eq, exprs_eq]
  | .ret none s => by simp [stmt, Resolve.stmt]
  | .ret (some value) s => by simp [stmt, Resolve.stmt, expr_eq]
  | .ifThen cond t s => by simp [stmt, Resolve.stmt, expr_eq, stmt_eq t]
  | .ifElse cond t e s => by simp [stmt, Resolve.stmt, expr_eq, stmt_eq t, stmt_eq e]
  | .loop cond body s => by simp [stmt, Resolve.stmt, expr_eq, stmt_eq body]

theorem stmts_eq : ∀ ss : List Stmt, stmts ctx ss = judgedBody (Resolve.stmts ctx ss)
  | [] => by simp [stmts, Resolve.stmts]
  | s :: ss => by simp [stmts, Resolve.stmts, stmt_eq s, stmts_eq ss]

end

end Statements

section Declarations

theorem params_eq (ctx : Context) : ∀ (i : Nat) (vs : List Variable) (scopes : Scopes Meaning),
    params ctx i vs scopes = judged (Resolve.params ctx i vs scopes)
  | _, [], _ => rfl
  | i, v :: vs, scopes => by
    rw [params, Resolve.params, judged_bind, heed_eq (plain_type ctx.classes v.type)]
    congr 1
    funext _
    split
    · rename_i inner h
      simp only [enter_of_some h, pure_bind, params_eq]
    · rename_i h
      simp only [enter_of_refused h]
      rfl

theorem method_eq (ctx : Context) (scopes : Scopes Meaning) (m : Method) :
    method ctx scopes m = judged (Resolve.method ctx scopes m) := by
  rw [method, Resolve.method, judged_bind, heed_eq (plain_type ctx.classes m.type)]
  congr 1
  funext _
  rw [judged_bind, params_eq]
  congr 1
  funext scopes j
  rw [stmts_eq]
  simp only [judgedBody, bind, EStateM.bind]
  cases Resolve.stmts ctx m.body ⟨scopes, 0⟩ <;> rfl

theorem methods_eq (ctx : Signature → Nat → Context) (scopes : Scopes Meaning) :
    ∀ (k : Nat) (ms : List Method),
      methods ctx scopes k ms = judged (Resolve.methods ctx scopes k ms)
  | _, [] => rfl
  | k, m :: ms => by simp [methods, Resolve.methods, method_eq, methods_eq ctx scopes (k + 1) ms]

theorem enterMembers_eq (cls : String) :
    ∀ (ds : List (Site × Span × Meaning)) (scopes : Scopes Meaning),
      enterMembers cls ds scopes = judged (Resolve.enterMembers cls ds scopes)
  | [], _ => rfl
  | (site, span, d) :: ds, scopes => by
    rw [enterMembers, Resolve.enterMembers]
    split
    · rename_i inner h
      rw [enter_of_some h, pure_bind, enterMembers_eq]
    · rename_i h
      rw [enter_of_refused h]
      rfl

theorem fieldTypes_eq (classes : List ClassDecl) : ∀ fs : List Field,
    fieldTypes classes fs = judged (Resolve.fieldTypes classes fs)
  | [] => rfl
  | f :: fs => by
    simp [fieldTypes, Resolve.fieldTypes, heed_eq (plain_type classes f.type),
      fieldTypes_eq classes fs]

theorem classDecl_eq (classes : List ClassDecl) (scopes : Scopes Meaning) (i : Nat)
    (c : ClassDecl) :
    classDecl classes scopes i c = judged (Resolve.classDecl classes scopes i c) := by
  simp [classDecl, Resolve.classDecl, enterMembers_eq, fieldTypes_eq, methods_eq]

theorem enterClasses_eq : ∀ (i : Nat) (cs : List ClassDecl) (scopes : Scopes Meaning),
    enterClasses i cs scopes = judged (Resolve.enterClasses i cs scopes)
  | _, [], _ => rfl
  | i, c :: cs, scopes => by
    rw [enterClasses, Resolve.enterClasses]
    split
    · rename_i inner h
      rw [enter_of_some h, pure_bind, enterClasses_eq]
    · rename_i h
      rw [enter_of_refused h]
      rfl

theorem classDecls_eq (classes : List ClassDecl) (scopes : Scopes Meaning) :
    ∀ (i : Nat) (cs : List ClassDecl),
      classDecls classes scopes i cs = judged (Resolve.classDecls classes scopes i cs)
  | _, [] => rfl
  | i, c :: cs => by
    simp [classDecls, Resolve.classDecls, classDecl_eq, classDecls_eq classes scopes (i + 1) cs]

end Declarations

end Logged

end MiniJava.Resolve

namespace MiniJava

open Resolve

variable {p q : Program} {e : NamingError}

/-- Resolving names with a journal gives what it gives without; the journal gets one report and the
flag of a refused declaration, or nothing. -/
theorem Program.identify_eq (p : Program) : p.identify = Logged.judged p.resolve := by
  simp [identify, resolve, Logged.enterClasses_eq, Logged.classDecls_eq]

theorem Program.identify_of_error (h : p.resolve = .error e) :
    p.identify {} = .error e ⟨[e.message], e.duplicate.toList⟩ := by
  rw [identify_eq, h]
  rfl

theorem Program.identify_of_ok (h : p.resolve = .ok q) : p.identify {} = .ok q {} := by
  rw [identify_eq, h]
  rfl

theorem Compile.resolve_of_error (h : p.resolve = .error e) :
    resolve p = ([.start .identification, .report e.message], .error .invalidProgram) := by
  rw [resolve, Program.identify_of_error h]
  rfl

theorem Compile.resolve_of_ok (h : p.resolve = .ok q) :
    resolve p = (.start .identification :: (check q).1, (check q).2) := by
  rw [resolve, Program.identify_of_ok h]
  rfl

end MiniJava
