import MiniJava.Scope.Resolve
/-!
Which declaration is marked as the second of its name. Names are refused for many reasons; a
declaration is marked only when it is refused itself, and then the error is about it.
-/
namespace MiniJava

/-- A declaration is refused because its name is declared already. -/
def NamingFault.isDuplicate : NamingFault → Bool
  | duplicateClass _ => true
  | duplicateMember _ _ => true
  | duplicateParam _ => true
  | duplicateVariable _ => true
  | _ => false

/-- The error is about no declaration, and none is marked. -/
structure NamingError.Plain (e : NamingError) : Prop where
  fault : e.fault.isDuplicate = false
  duplicate : e.duplicate = none

def Program.methodAt? (p : Program) (c m : Nat) : Option Method :=
  p.classes[c]?.bind (·.methods[m]?)

/-- The error that refuses the declaration at a place of the program as the second of its name. -/
def Program.duplicateAt? (p : Program) (site : Site) : Option NamingError :=
  match site with
  | .cls c => p.classes[c]?.map fun d => ⟨.duplicateClass d.name, d.span, some site⟩
  | .field c f => p.classes[c]?.bind fun d => d.fields[f]?.map fun x =>
    ⟨.duplicateMember x.name d.name, x.span, some site⟩
  | .method c m => p.classes[c]?.bind fun d => d.methods[m]?.map fun x =>
    ⟨.duplicateMember x.name d.name, x.span, some site⟩
  | .param c m i => (p.methodAt? c m).bind fun x => x.params[i]?.map fun v =>
    ⟨.duplicateParam v.name, v.span, some site⟩
  | .localVar c m i => (p.methodAt? c m).bind fun x => x.locals[i]?.map fun v =>
    ⟨.duplicateVariable v.name, v.span, some site⟩

theorem Program.duplicateAt?_marks {p : Program} {site : Site} {e : NamingError}
    (h : p.duplicateAt? site = some e) : e.duplicate = some site ∧ e.fault.isDuplicate = true := by
  cases site with
  | cls c =>
    obtain ⟨d, -, rfl⟩ := Option.map_eq_some_iff.mp h
    exact ⟨rfl, rfl⟩
  | field c f =>
    obtain ⟨d, -, h⟩ := Option.bind_eq_some_iff.mp h
    obtain ⟨x, -, rfl⟩ := Option.map_eq_some_iff.mp h
    exact ⟨rfl, rfl⟩
  | method c m =>
    obtain ⟨d, -, h⟩ := Option.bind_eq_some_iff.mp h
    obtain ⟨x, -, rfl⟩ := Option.map_eq_some_iff.mp h
    exact ⟨rfl, rfl⟩
  | param c m i =>
    obtain ⟨d, -, h⟩ := Option.bind_eq_some_iff.mp h
    obtain ⟨x, -, rfl⟩ := Option.map_eq_some_iff.mp h
    exact ⟨rfl, rfl⟩
  | localVar c m i =>
    obtain ⟨d, -, h⟩ := Option.bind_eq_some_iff.mp h
    obtain ⟨x, -, rfl⟩ := Option.map_eq_some_iff.mp h
    exact ⟨rfl, rfl⟩

/-- The error is about no declaration, or refuses one of the program and marks it. -/
def Program.Explains (p : Program) (e : NamingError) : Prop :=
  e.Plain ∨ ∃ site, p.duplicateAt? site = some e

namespace Resolve

variable {α β : Type}

/-- Every error of the step has the property. -/
def FailsWith (P : NamingError → Prop) (x : Except NamingError α) : Prop := ∀ e, x = .error e → P e

namespace FailsWith

variable {P : NamingError → Prop}

theorem ok {a : α} : FailsWith P (.ok a) := by
  intro e he
  cases he

theorem refuse {fault : NamingFault} {span : Span} (h : fault.isDuplicate = false) :
    FailsWith NamingError.Plain (refuse fault span : Except NamingError α) := by
  intro e he
  cases he
  exact ⟨h, rfl⟩

theorem bind {x : Except NamingError α} {f : α → Except NamingError β} (hx : FailsWith P x)
    (hf : ∀ a, FailsWith P (f a)) : FailsWith P (x >>= f) := by
  cases x with
  | ok a => exact hf a
  | error e =>
    intro e' he'
    cases he'
    exact hx e rfl

theorem mono {Q : NamingError → Prop} {x : Except NamingError α} (hx : FailsWith P x)
    (h : ∀ e, P e → Q e) : FailsWith Q x :=
  fun e he => h e (hx e he)

end FailsWith

/-! ### Names in phrases -/

theorem plain_type (classes : List ClassDecl) :
    ∀ t : TypeName, FailsWith NamingError.Plain (type classes t)
  | .cls id => by
    rw [type]
    split
    · exact .ok
    · exact .refuse rfl
  | .array elem _ => plain_type classes elem
  | .int _ => .ok
  | .boolean _ => .ok
  | .void _ => .ok

section Phrases

variable (ctx : Context) (scopes : Scopes Meaning)

theorem plain_classMember (q : Ref) (id : Ident) (c : ClassDecl) :
    FailsWith NamingError.Plain (ctx.classMember q id c) := by
  unfold Context.classMember
  split
  · exact .refuse rfl
  · split
    · exact .refuse rfl
    · split
      · split
        · exact .refuse rfl
        · exact .ok
      · exact .ok

theorem plain_member (q : Ref) (d : Meaning) (id : Ident) :
    FailsWith NamingError.Plain (ctx.member q d id) := by
  unfold Context.member
  split
  · exact .refuse rfl
  · split
    · split
      · exact .ok
      · exact .refuse rfl
    · split
      · exact plain_classMember ctx q id _
      · exact .refuse rfl
    · exact .refuse rfl

theorem plain_bareName (id : Ident) : FailsWith NamingError.Plain (ctx.bareName scopes id) := by
  unfold Context.bareName
  split
  · exact .refuse rfl
  · split
    · exact .refuse rfl
    · split
      · exact .refuse rfl
      · exact .ok

theorem plain_bareCall (id : Ident) : FailsWith NamingError.Plain (ctx.bareCall scopes id) := by
  unfold Context.bareCall
  split
  · exact .refuse rfl
  · split
    · exact .refuse rfl
    · exact .ok

theorem plain_ref (r : Ref) : FailsWith NamingError.Plain (ctx.ref scopes r) := by
  induction r with
  | this span d =>
    rw [Context.ref]
    split
    · exact .refuse rfl
    · exact .ok
  | name id d => exact (plain_bareName ctx scopes id).bind fun _ => .ok
  | member q id d ih => exact ih.bind fun _ => (plain_member ctx _ _ id).bind fun _ => .ok

theorem plain_callee (r : Ref) : FailsWith NamingError.Plain (ctx.callee scopes r) := by
  cases r with
  | this span d => exact .refuse rfl
  | name id d => exact (plain_bareCall ctx scopes id).bind fun _ => .ok
  | member q id d =>
    refine (plain_ref ctx scopes _).bind fun x => ?_
    dsimp only
    split
    · exact .ok
    · exact .refuse rfl

mutual

theorem plain_expr : ∀ e : Expr, FailsWith NamingError.Plain (ctx.expr scopes e)
  | .unary _ _ e => (plain_expr e).bind fun _ => .ok
  | .binary _ _ l r => (plain_expr l).bind fun _ => (plain_expr r).bind fun _ => .ok
  | .ref r => (plain_ref ctx scopes r).bind fun _ => .ok
  | .index r i _ => (plain_ref ctx scopes r).bind fun _ => (plain_expr i).bind fun _ => .ok
  | .call r args _ => (plain_callee ctx scopes r).bind fun _ => (plain_exprs args).bind fun _ => .ok
  | .literal _ _ => .ok
  | .newObject c _ => (plain_type ctx.classes (.cls c)).bind fun _ => .ok
  | .newArray t size _ =>
    (plain_type ctx.classes t).bind fun _ => (plain_expr size).bind fun _ => .ok

theorem plain_exprs : ∀ es : List Expr, FailsWith NamingError.Plain (ctx.exprs scopes es)
  | [] => .ok
  | e :: es => (plain_expr e).bind fun _ => (plain_exprs es).bind fun _ => .ok

end

end Phrases

/-! ### Statements -/

/-- The error that refuses the local variable `v` of the method as the second of its name. -/
def Context.duplicateLocal (ctx : Context) (i : Nat) (v : Variable) : NamingError :=
  ⟨.duplicateVariable v.name, v.span, some (.localVar ctx.classIndex ctx.methodIndex i)⟩

/-- What has come of the locals `vs`, the first of which is the local number `n`: all are declared,
or one is refused. -/
def Declared (ctx : Context) (n : Nat)
    (vs : List Variable) : EStateM.Result NamingError State α → Prop
  | .ok _ s => s.locals = n + vs.length
  | .error e _ => e.Plain ∨ ∃ i v, vs[i]? = some v ∧ e = ctx.duplicateLocal (n + i) v

/-- The step declares the locals `vs` and no others. -/
def Declares (ctx : Context) (vs : List Variable) (step : Body α) : Prop :=
  ∀ s : State, Declared ctx s.locals vs (step s)

namespace Declares

variable {ctx : Context} {vs ws : List Variable}

theorem pure {a : α} : Declares ctx [] (Pure.pure a) := fun _ => rfl

theorem reading {f : Scopes Meaning → Except NamingError α}
    (h : ∀ scopes, FailsWith NamingError.Plain (f scopes)) : Declares ctx [] (reading f) := by
  intro s
  unfold Resolve.reading
  cases hf : f s.scopes with
  | ok a => exact rfl
  | error e => exact .inl (h s.scopes e hf)

theorem bind {step : Body α} {next : α → Body β} (hstep : Declares ctx vs step)
    (hnext : ∀ a, Declares ctx ws (next a)) : Declares ctx (vs ++ ws) (step >>= next) := by
  intro s
  have hfirst := hstep s
  change Declared ctx s.locals (vs ++ ws) (EStateM.bind step next s)
  unfold EStateM.bind
  generalize step s = r at hfirst
  cases r with
  | error e t =>
    rcases hfirst with hplain | ⟨i, v, hv, he⟩
    · exact .inl hplain
    · have hi : i < vs.length := (List.getElem?_eq_some_iff.mp hv).1
      refine .inr ⟨i, v, ?_, he⟩
      rwa [List.getElem?_append_left hi]
  | ok a t =>
    have hlocals : t.locals = s.locals + vs.length := hfirst
    have hsecond := hnext a t
    dsimp only
    generalize next a t = r at hsecond
    cases r with
    | ok b u =>
      have hrest : u.locals = t.locals + ws.length := hsecond
      change u.locals = s.locals + (vs ++ ws).length
      rw [hrest, hlocals, List.length_append, Nat.add_assoc]
    | error e u =>
      rcases hsecond with hplain | ⟨i, v, hv, he⟩
      · exact .inl hplain
      · refine .inr ⟨vs.length + i, v, ?_, ?_⟩
        · rw [List.getElem?_append_right (Nat.le_add_right _ _), Nat.add_sub_cancel_left]
          exact hv
        · rw [he, hlocals, Nat.add_assoc]

theorem after {f : Scopes Meaning → Except NamingError α} {next : α → Body β}
    (h : ∀ scopes, FailsWith NamingError.Plain (f scopes)) (hnext : ∀ a, Declares ctx vs (next a)) :
    Declares ctx vs (Resolve.reading f >>= next) :=
  (reading h).bind hnext

theorem map {step : Body α} {f : α → β} (hstep : Declares ctx vs step) :
    Declares ctx vs (step >>= fun a => Pure.pure (f a)) := by
  have hboth : Declares ctx (vs ++ []) (step >>= fun a => Pure.pure (f a)) :=
    hstep.bind fun _ => pure
  rwa [List.append_nil] at hboth

theorem inScope {step : Body α} (h : Declares ctx vs step) : Declares ctx vs (inScope step) := by
  intro s
  have hinner := h { s with scopes := s.scopes.openScope }
  unfold Resolve.inScope
  generalize step { s with scopes := s.scopes.openScope } = r at hinner
  cases r with
  | ok a t => exact hinner
  | error e t => exact hinner

theorem declareLocal (v : Variable) : Declares ctx [v] (declareLocal ctx v) := by
  intro s
  unfold Resolve.declareLocal
  split
  · rfl
  · exact .inr ⟨0, v, rfl, rfl⟩

end Declares

section Statements

variable (ctx : Context)

theorem declares_initializer (v : Variable) (e : Expr) : Declares ctx [] (initializer ctx v e) :=
  .reading fun scopes => plain_expr ctx (scopes.startDeclaring v.name) e

mutual

theorem declares_stmt : ∀ s : Stmt, Declares ctx s.locals (stmt ctx s)
  | .block body _ => (declares_stmts body).inScope.map
  | .declare v init _ => by
    refine .after (fun _ => plain_type ctx.classes v.type) fun _ => ?_
    exact (Declares.declareLocal v).bind fun _ => (declares_initializer ctx v init).map
  | .assign r value _ =>
    .after (plain_ref ctx · r) fun _ => .after (plain_expr ctx · value) fun _ => .pure
  | .assignIndex r i value _ =>
    .after (plain_ref ctx · r) fun _ => .after (plain_expr ctx · i) fun _ =>
      .after (plain_expr ctx · value) fun _ => .pure
  | .call r args _ =>
    .after (plain_callee ctx · r) fun _ =>
      .after (plain_exprs ctx · args) fun _ => .pure
  | .ret none _ => .pure
  | .ret (some value) _ => .after (plain_expr ctx · value) fun _ => .pure
  | .ifThen cond t _ => .after (plain_expr ctx · cond) fun _ => (declares_stmt t).inScope.map
  | .ifElse cond t e _ =>
    .after (plain_expr ctx · cond) fun _ => (declares_stmt t).inScope.bind fun _ =>
      (declares_stmt e).inScope.map
  | .loop cond body _ => .after (plain_expr ctx · cond) fun _ => (declares_stmt body).inScope.map

theorem declares_stmts : ∀ ss : List Stmt, Declares ctx (Stmt.localsOf ss) (stmts ctx ss)
  | [] => .pure
  | s :: ss => (declares_stmt s).bind fun _ => (declares_stmts ss).map

end

end Statements

/-! ### Declarations -/

section Declarations

variable {p : Program}

theorem getElem?_of_drop {xs ys : List α} {x : α} {i : Nat} (h : xs.drop i = x :: ys) :
    xs[i]? = some x ∧ xs.drop (i + 1) = ys := by
  constructor
  · rw [← Nat.add_zero i, ← List.getElem?_drop, h]
    rfl
  · rw [← List.drop_drop, h]
    rfl

theorem explains_params {ctx : Context} {m : Method}
    (hm : p.methodAt? ctx.classIndex ctx.methodIndex = some m) :
    ∀ (vs : List Variable) (i : Nat) (scopes : Scopes Meaning), m.params.drop i = vs →
      FailsWith p.Explains (params ctx i vs scopes) := by
  intro vs
  induction vs with
  | nil =>
    intro i scopes _
    exact .ok
  | cons v vs ih =>
    intro i scopes hvs
    obtain ⟨hv, hvs⟩ := getElem?_of_drop hvs
    refine ((plain_type ctx.classes v.type).mono fun _ => .inl).bind fun _ => ?_
    split
    · exact ih _ _ hvs
    · intro e he
      cases he
      refine .inr ⟨.param ctx.classIndex ctx.methodIndex i, ?_⟩
      rw [Program.duplicateAt?, hm, Option.bind_some, hv]
      rfl

theorem explains_method {ctx : Context} {m : Method}
    (hm : p.methodAt? ctx.classIndex ctx.methodIndex = some m) (scopes : Scopes Meaning) :
    FailsWith p.Explains (method ctx scopes m) := by
  refine ((plain_type ctx.classes m.type).mono fun _ => .inl).bind fun _ => ?_
  refine (explains_params hm _ 0 _ rfl).bind fun inner => ?_
  have hbody := declares_stmts ctx m.body ⟨inner, 0⟩
  generalize stmts ctx m.body ⟨inner, 0⟩ = r at hbody
  cases r with
  | ok body s => exact .ok
  | error e s =>
    intro e' he'
    cases he'
    rcases hbody with hplain | ⟨i, v, hv, rfl⟩
    · exact .inl hplain
    · refine .inr ⟨.localVar ctx.classIndex ctx.methodIndex (0 + i), ?_⟩
      rw [Program.duplicateAt?, hm, Option.bind_some, Nat.zero_add, Method.locals, hv]
      rfl

theorem explains_methods {classes : List ClassDecl} {owner : String} {c : Nat} {d : ClassDecl}
    (hd : p.classes[c]? = some d) (scopes : Scopes Meaning) :
    ∀ (ms : List Method) (k : Nat), d.methods.drop k = ms →
      FailsWith p.Explains (methods (fun m k => ⟨classes, owner, m, c, k⟩) scopes k ms) := by
  intro ms
  induction ms with
  | nil =>
    intro k _
    exact .ok
  | cons m ms ih =>
    intro k hms
    obtain ⟨hm, hms⟩ := getElem?_of_drop hms
    have hmethod : p.methodAt? c k = some m := by rw [Program.methodAt?, hd, Option.bind_some, hm]
    exact (explains_method hmethod scopes).bind fun _ => (ih (k + 1) hms).bind fun _ => .ok

theorem plain_fieldTypes (classes : List ClassDecl) (fs : List Field) :
    FailsWith NamingError.Plain (fieldTypes classes fs) := by
  induction fs with
  | nil => exact .ok
  | cons f fs ih => exact (plain_type classes f.type).bind fun _ => ih

theorem explains_enterMembers {cls : String} (ds : List (Site × Span × Meaning))
    (hds : ∀ x ∈ ds, p.duplicateAt? x.1 = some ⟨.duplicateMember x.2.2.name cls, x.2.1, some x.1⟩)
    (scopes : Scopes Meaning) : FailsWith p.Explains (enterMembers cls ds scopes) := by
  induction ds generalizing scopes with
  | nil => exact .ok
  | cons x ds ih =>
    obtain ⟨hx, hds⟩ := List.forall_mem_cons.mp hds
    rw [enterMembers]
    split
    · exact ih hds _
    · intro e he
      cases he
      exact .inr ⟨x.1, hx⟩

theorem duplicateAt?_members {c : Nat} {d : ClassDecl} (hd : p.classes[c]? = some d) :
    ∀ x ∈ members d c, p.duplicateAt? x.1 = some ⟨.duplicateMember x.2.2.name d.name, x.2.1,
      some x.1⟩ := by
  intro x hx
  rcases List.mem_append.mp hx with hx | hx
  · obtain ⟨k, hk, rfl⟩ := List.mem_mapIdx.mp hx
    rw [Program.duplicateAt?, hd, Option.bind_some, List.getElem?_eq_getElem hk]
    rfl
  · obtain ⟨k, hk, rfl⟩ := List.mem_mapIdx.mp hx
    rw [Program.duplicateAt?, hd, Option.bind_some, List.getElem?_eq_getElem hk]
    rfl

theorem explains_classDecl {classes : List ClassDecl} {c : Nat} {d : ClassDecl}
    (hd : p.classes[c]? = some d) (scopes : Scopes Meaning) :
    FailsWith p.Explains (classDecl classes scopes c d) := by
  refine (explains_enterMembers _ (duplicateAt?_members hd) _).bind fun inner => ?_
  refine ((plain_fieldTypes classes d.fields).mono fun _ => .inl).bind fun _ => ?_
  exact (explains_methods hd inner _ 0 rfl).bind fun _ => .ok

theorem explains_classDecls {classes : List ClassDecl} (scopes : Scopes Meaning) :
    ∀ (ds : List ClassDecl) (c : Nat), p.classes.drop c = ds →
      FailsWith p.Explains (classDecls classes scopes c ds) := by
  intro ds
  induction ds with
  | nil =>
    intro c _
    exact .ok
  | cons d ds ih =>
    intro c hds
    obtain ⟨hd, hds⟩ := getElem?_of_drop hds
    exact (explains_classDecl hd scopes).bind fun _ => (ih (c + 1) hds).bind fun _ => .ok

theorem explains_enterClasses :
    ∀ (ds : List ClassDecl) (c : Nat) (scopes : Scopes Meaning), p.classes.drop c = ds →
      FailsWith p.Explains (enterClasses c ds scopes) := by
  intro ds
  induction ds with
  | nil =>
    intro c scopes _
    exact .ok
  | cons d ds ih =>
    intro c scopes hds
    obtain ⟨hd, hds⟩ := getElem?_of_drop hds
    rw [enterClasses]
    split
    · exact ih _ _ hds
    · intro e he
      cases he
      refine .inr ⟨.cls c, ?_⟩
      rw [Program.duplicateAt?, hd]
      rfl

end Declarations

theorem enterClasses_library : enterClasses 0 Library.classes Scopes.new = .ok predefined := by rfl

end Resolve

open Resolve in
/-- A naming error refuses a declaration of the program and marks it, or is about no declaration and
marks none. -/
theorem Program.explains_of_resolve {p : Program} {e : NamingError}
    (h : p.resolve = .error e) : p.Explains e := by
  have hresolve : FailsWith p.Explains p.resolve :=
    (explains_enterClasses _ 0 _ rfl).bind fun scopes =>
      (explains_classDecls scopes _ 0 rfl).bind fun _ => .ok
  exact hresolve e h

end MiniJava
