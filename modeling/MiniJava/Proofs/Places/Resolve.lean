import MiniJava.Proofs.Places.Erase
import MiniJava.Scope.Resolve
/-!
Names mean the same without lines: resolving a program without lines gives the resolved program
without lines, or refuses the same name for the same reason.
-/
namespace MiniJava

/-! ### Scopes -/

namespace Scopes

/-- The scopes with the meanings in them erased. -/
def erase (s : Scopes Meaning) : Scopes Meaning :=
  ⟨s.levels.map (List.map fun x => (x.1, x.2.erase)), s.declaring⟩

theorem lookup_erase (l : Level Meaning) (name : String) :
    (l.map fun x => (x.1, x.2.erase)).lookup name = (l.lookup name).map Meaning.erase := by
  induction l with
  | nil => rfl
  | cons x l ih =>
    obtain ⟨key, d⟩ := x
    rw [List.map_cons, List.lookup_cons, List.lookup_cons, ih]
    cases name == key <;> rfl

variable (s : Scopes Meaning) (name : String)

theorem find?_erase : s.erase.find? name = (s.find? name).map Meaning.erase := by
  rw [find?, find?, erase]
  induction s.levels with
  | nil => rfl
  | cons l ls ih =>
    rw [List.map_cons, List.findSome?_cons, List.findSome?_cons, lookup_erase]
    cases l.lookup name with
    | some d => rfl
    | none => exact ih

theorem findMethod_erase :
    s.erase.findMethod Meaning.kind name = (s.findMethod Meaning.kind name).map Meaning.erase := by
  rw [findMethod, findMethod, findAt?, findAt?, erase, ← List.map_reverse, List.getElem?_map]
  cases s.levels.reverse[1]? with
  | none => rfl
  | some l =>
    simp only [Option.map_some, Option.bind_some, lookup_erase]
    cases l.lookup name with
    | none => rfl
    | some d =>
      simp only [Option.map_some, Option.filter, Meaning.kind_erase]
      split <;> rfl

theorem isTaken_erase : s.erase.isTaken name = s.isTaken name := by
  have hrivals (levels : List (Level Meaning)) :
      rivals (levels.map (List.map fun x => (x.1, x.2.erase))) =
        (rivals levels).map (List.map fun x => (x.1, x.2.erase)) := by
    cases levels with
    | nil => rfl
    | cons inner outer => simp only [rivals, List.map_cons, List.map_take, List.length_map]
  rw [isTaken, isTaken, erase, hrivals, List.any_map]
  congr
  funext l
  rw [Function.comp_apply, lookup_erase, Option.isSome_map]

theorem enter_erase (d : Meaning) :
    s.erase.enter name d.erase = (s.enter name d).map (Option.map erase) := by
  have htaken := s.isTaken_erase name
  obtain ⟨levels, declaring⟩ := s
  cases levels with
  | nil => rfl
  | cons inner outer =>
    simp only [enter, erase, List.map_cons] at htaken ⊢
    rw [htaken]
    split <;> rfl

end Scopes

namespace NamingError

def erase (e : NamingError) : NamingError := { e with span := blank }

end NamingError

namespace Resolve

variable {α β : Type}

theorem class?_erase (classes : List ClassDecl) (name : String) :
    class? (classes.map ClassDecl.erase) name = (class? classes name).map ClassDecl.erase := by
  rw [class?, class?, List.find?_map]
  rfl

theorem type_erase (classes : List ClassDecl) (t : TypeName) :
    type (classes.map ClassDecl.erase) t.shape = mapBoth NamingError.erase id (type classes t) := by
  induction t with
  | int | boolean | void => rfl
  | cls id =>
    rw [TypeName.shape, type, type, Ident.shape, class?_erase]
    cases class? classes id.name <;> rfl
  | array elem span ih => exact ih

theorem member?_erase (c : ClassDecl) (name : String) :
    c.erase.member? name = (c.member? name).map Meaning.erase := by
  simp only [ClassDecl.member?, ClassDecl.erase, List.find?_map]
  have hfield : ((fun f : Field => f.name == name) ∘ Field.shape) = fun f => f.name == name := rfl
  have hmethod : ((fun m : Method => m.name == name) ∘ Method.erase) = fun m => m.name == name :=
    rfl
  rw [hfield, hmethod]
  cases c.fields.find? _ with
  | some f => rfl
  | none => cases c.methods.find? _ <;> rfl

namespace Context

/-- What is known, without lines. -/
def erase (ctx : Context) : Context :=
  { ctx with classes := ctx.classes.map ClassDecl.erase, method := ctx.method.shape }

variable (ctx : Context) (scopes : Scopes Meaning)

theorem classMember_erase (q : Ref) (id : Ident) (c : ClassDecl) :
    ctx.erase.classMember q.erase id.shape c.erase = mapBoth NamingError.erase Meaning.erase
      (ctx.classMember q id c) := by
  have hmember : c.erase.member? id.shape.name = (c.member? id.name).map Meaning.erase :=
    member?_erase c id.name
  rw [classMember, classMember, hmember]
  cases c.member? id.name with
  | none => rfl
  | some m =>
    have hprivate : (m.erase.isPrivate && c.erase.name != ctx.erase.owner) =
        (m.isPrivate && c.name != ctx.owner) := by
      rw [m.isPrivate_erase]
      rfl
    simp only [Option.map_some, hprivate]
    split
    · rfl
    · cases q with
      | this | member => rfl
      | name qid d =>
        have hthrough : (qid.shape.name == c.erase.name && m.erase.isInstance) =
            (qid.name == c.name && m.isInstance) := by
          rw [m.isInstance_erase]
          rfl
        simp only [Ref.erase, hthrough]
        split <;> rfl

theorem member_erase (q : Ref) (d : Meaning) (id : Ident) :
    ctx.erase.member q.erase d.erase id.shape = mapBoth NamingError.erase Meaning.erase
      (ctx.member q d id) := by
  have hty := d.ty_erase
  have hname := d.name_erase
  have hclass (name : String) :
      class? ctx.erase.classes name = (class? ctx.classes name).map ClassDecl.erase :=
    class?_erase ctx.classes name
  cases d with
  | method owner m =>
    simp only [Meaning.erase, member, Ref.span_erase]
    rfl
  | cls | field | param | localVar | length =>
    simp only [Meaning.erase] at hty hname
    simp only [Meaning.erase, member, hty, hname, Ref.span_erase, hclass]
    split
    · by_cases hlength : id.name = "length"
      · have hshape : id.shape.name = "length" := hlength
        rw [if_pos hlength, if_pos hshape]
        rfl
      · have hshape : id.shape.name ≠ "length" := hlength
        rw [if_neg hlength, if_neg hshape]
        rfl
    · rename_i name _
      cases class? ctx.classes name with
      | none => rfl
      | some c => exact ctx.classMember_erase q id c
    · rfl

theorem bareName_erase (id : Ident) :
    ctx.erase.bareName scopes.erase id.shape = mapBoth NamingError.erase Meaning.erase
      (ctx.bareName scopes id) := by
  have hfind : scopes.erase.find? id.shape.name = (scopes.find? id.name).map Meaning.erase :=
    scopes.find?_erase id.name
  have hdeclaring : scopes.erase.isBeingDeclared id.shape.name = scopes.isBeingDeclared id.name :=
    rfl
  rw [bareName, bareName, hdeclaring, hfind]
  split
  · rfl
  · cases scopes.find? id.name with
    | none => rfl
    | some d =>
      have hinstance : (ctx.erase.method.isStatic && d.erase.isInstance) =
          (ctx.method.isStatic && d.isInstance) := by
        rw [d.isInstance_erase]
        rfl
      simp only [Option.map_some, hinstance]
      split <;> rfl

theorem bareCall_erase (id : Ident) :
    ctx.erase.bareCall scopes.erase id.shape = mapBoth NamingError.erase Meaning.erase
      (ctx.bareCall scopes id) := by
  have hfind : scopes.erase.findMethod Meaning.kind id.shape.name =
      (scopes.findMethod Meaning.kind id.name).map Meaning.erase := scopes.findMethod_erase id.name
  rw [bareCall, bareCall, hfind]
  cases scopes.findMethod Meaning.kind id.name with
  | none => rfl
  | some d =>
    have hinstance : (ctx.erase.method.isStatic && d.erase.isInstance) =
        (ctx.method.isStatic && d.isInstance) := by
      rw [d.isInstance_erase]
      rfl
    simp only [Option.map_some, hinstance, d.name_erase]
    split <;> rfl

theorem ref_erase (r : Ref) :
    ctx.erase.ref scopes.erase r.erase =
      mapBoth NamingError.erase (Prod.map Ref.erase Meaning.erase) (ctx.ref scopes r) := by
  induction r with
  | this span d =>
    have hstatic : ctx.erase.method.isStatic = ctx.method.isStatic := rfl
    rw [Ref.erase, ref, ref, hstatic]
    split <;> rfl
  | name id d => exact mapBoth_bind (ctx.bareName_erase scopes id) fun d => rfl
  | member q id d ih =>
    exact mapBoth_bind ih fun x => mapBoth_bind (ctx.member_erase x.1 x.2 id) fun d => rfl

theorem callee_erase (r : Ref) :
    ctx.erase.callee scopes.erase r.erase =
      mapBoth NamingError.erase Ref.erase (ctx.callee scopes r) := by
  cases r with
  | this span d => rfl
  | name id d => exact mapBoth_bind (ctx.bareCall_erase scopes id) fun d => rfl
  | member q id d =>
    refine mapBoth_bind (ctx.ref_erase scopes (.member q id d)) fun x => ?_
    obtain ⟨r, d⟩ := x
    cases d <;> rfl

mutual

theorem expr_erase : ∀ e : Expr,
    ctx.erase.expr scopes.erase e.erase = mapBoth NamingError.erase Expr.erase (ctx.expr scopes e)
  | .unary op s e => by
    rw [Expr.erase, expr, expr]
    exact mapBoth_bind (expr_erase e) fun _ => rfl
  | .binary op s l r => by
    rw [Expr.erase, expr, expr]
    exact mapBoth_bind (expr_erase l) fun _ => mapBoth_bind (expr_erase r) fun _ => rfl
  | .ref r => by
    rw [Expr.erase, expr, expr]
    exact mapBoth_bind (ctx.ref_erase scopes r) fun _ => rfl
  | .index r i s => by
    rw [Expr.erase, expr, expr]
    exact mapBoth_bind (ctx.ref_erase scopes r) fun _ => mapBoth_bind (expr_erase i) fun _ => rfl
  | .call r args s => by
    rw [Expr.erase, expr, expr]
    exact mapBoth_bind (ctx.callee_erase scopes r) fun _ => mapBoth_bind (exprs_erase args) fun _ =>
      rfl
  | .literal l s => by
    rw [Expr.erase, expr, expr]
    rfl
  | .newObject c s => by
    rw [Expr.erase, expr, expr]
    exact mapBoth_bind (type_erase ctx.classes (.cls c)) fun _ => rfl
  | .newArray t size s => by
    rw [Expr.erase, expr, expr]
    exact mapBoth_bind (type_erase ctx.classes t) fun _ => mapBoth_bind (expr_erase size) fun _ =>
      rfl

theorem exprs_erase :
    ∀ es : List Expr, ctx.erase.exprs scopes.erase (Expr.eraseAll es) =
      mapBoth NamingError.erase Expr.eraseAll (ctx.exprs scopes es)
  | [] => by
    rw [Expr.eraseAll, exprs, exprs]
    rfl
  | e :: es => by
    rw [Expr.eraseAll, exprs, exprs]
    exact mapBoth_bind (expr_erase e) fun _ => mapBoth_bind (exprs_erase es) fun _ => rfl

end

end Context

/-! ### Statements -/

/-- The state with the meanings in its scopes erased. -/
def State.erase (s : State) : State := ⟨s.scopes.erase, s.locals⟩

/-- `q` does without lines what `p` does, and its outcome is changed by `f`. -/
def Blind (f : α → β) (p : Body α) (q : Body β) : Prop :=
  Mirrors NamingError.erase State.erase f p q

namespace Blind

theorem pure {f : α → β} {a : α} {b : β} (hb : f a = b) : Blind f (Pure.pure a) (Pure.pure b) :=
  Mirrors.pure hb

theorem bind {α' β' : Type} {f : α → β} {f' : α' → β'} {p : Body α} {q : Body β} {k : α → Body α'}
    {k' : β → Body β'} (hp : Blind f p q)
    (hk : ∀ a, Blind f' (k a) (k' (f a))) : Blind f' (p >>= k) (q >>= k') :=
  Mirrors.bind hp hk

theorem reading {f : α → β} {p : Scopes Meaning → Except NamingError α}
    {q : Scopes Meaning → Except NamingError β}
    (h : ∀ scopes, q scopes.erase = mapBoth NamingError.erase f (p scopes)) :
    Blind f (reading p) (reading q) := by
  intro s
  have hs : q s.erase.scopes = mapBoth NamingError.erase f (p s.scopes) := h s.scopes
  rw [Resolve.reading, Resolve.reading, hs]
  cases p s.scopes <;> rfl

theorem inScope {f : α → β} {p : Body α} {q : Body β}
    (h : Blind f p q) : Blind f (inScope p) (inScope q) := by
  have hleave (t : State) : t.erase.leave = t.leave.erase := by
    rw [State.leave, State.leave, State.erase, State.erase, Scopes.erase, Scopes.erase,
      List.map_tail]
  intro s
  have hopened : q { s.erase with scopes := s.erase.scopes.openScope } =
      mapResult NamingError.erase State.erase f (p { s with scopes := s.scopes.openScope }) :=
    h { s with scopes := s.scopes.openScope }
  rw [Resolve.inScope, Resolve.inScope, hopened]
  cases p { s with scopes := s.scopes.openScope } <;> simp only [mapResult, hleave]

end Blind

theorem blind_declareLocal (ctx : Context) (v : Variable) :
    Blind id (declareLocal ctx v) (declareLocal ctx.erase v.shape) := by
  intro s
  have henter : s.erase.scopes.enter v.shape.name (.localVar s.erase.locals v.shape) =
      (s.scopes.enter v.name (.localVar s.locals v)).map (Option.map Scopes.erase) :=
    s.scopes.enter_erase v.name (.localVar s.locals v)
  rw [declareLocal, declareLocal, henter]
  rcases s.scopes.enter v.name (.localVar s.locals v) with _ | _ | scopes <;> rfl

theorem blind_initializer (ctx : Context) (v : Variable) (e : Expr) :
    Blind Expr.erase (initializer ctx v e) (initializer ctx.erase v.shape e.erase) :=
  .reading fun scopes => ctx.expr_erase (scopes.startDeclaring v.name) e

theorem blind_expr (ctx : Context) (e : Expr) :
    Blind Expr.erase (reading fun scopes => ctx.expr scopes e) (reading fun scopes =>
      ctx.erase.expr scopes e.erase) :=
  .reading fun scopes => ctx.expr_erase scopes e

theorem blind_ref (ctx : Context) (r : Ref) :
    Blind (Prod.map Ref.erase Meaning.erase) (reading fun scopes => ctx.ref scopes r)
      (reading fun scopes => ctx.erase.ref scopes r.erase) :=
  .reading fun scopes => ctx.ref_erase scopes r

mutual

theorem blind_stmt (ctx : Context) :
    ∀ s : Stmt, Blind Stmt.erase (stmt ctx s) (stmt ctx.erase s.erase)
  | .block body s => by
    rw [Stmt.erase, stmt, stmt]
    exact (blind_stmts ctx body).inScope.bind fun _ => .pure rfl
  | .declare v init s => by
    have htype : Blind id (reading fun _ => type ctx.classes v.type)
        (reading fun _ => type ctx.erase.classes v.shape.type) :=
          .reading fun _ => type_erase ctx.classes v.type
    rw [Stmt.erase, stmt, stmt]
    exact htype.bind fun _ => (blind_declareLocal ctx v).bind fun _ =>
      (blind_initializer ctx v init).bind fun _ => .pure rfl
  | .assign r value s => by
    rw [Stmt.erase, stmt, stmt]
    exact (blind_ref ctx r).bind fun _ => (blind_expr ctx value).bind fun _ => .pure rfl
  | .assignIndex r i value s => by
    rw [Stmt.erase, stmt, stmt]
    exact (blind_ref ctx r).bind fun _ => (blind_expr ctx i).bind fun _ =>
      (blind_expr ctx value).bind fun _ => .pure rfl
  | .call r args s => by
    have hcallee : Blind Ref.erase (reading fun scopes => ctx.callee scopes r)
        (reading fun scopes => ctx.erase.callee scopes r.erase) :=
          .reading fun scopes => ctx.callee_erase scopes r
    have hargs : Blind Expr.eraseAll (reading fun scopes => ctx.exprs scopes args)
        (reading fun scopes => ctx.erase.exprs scopes (Expr.eraseAll args)) :=
      .reading fun scopes => ctx.exprs_erase scopes args
    rw [Stmt.erase, stmt, stmt]
    exact hcallee.bind fun _ => hargs.bind fun _ => .pure rfl
  | .ret none s => by
    rw [Stmt.erase, stmt, stmt]
    exact .pure rfl
  | .ret (some value) s => by
    rw [Stmt.erase, stmt, stmt]
    exact (blind_expr ctx value).bind fun _ => .pure rfl
  | .ifThen cond t s => by
    rw [Stmt.erase, stmt, stmt]
    exact (blind_expr ctx cond).bind fun _ => (blind_stmt ctx t).inScope.bind fun _ => .pure rfl
  | .ifElse cond t e s => by
    rw [Stmt.erase, stmt, stmt]
    exact (blind_expr ctx cond).bind fun _ => (blind_stmt ctx t).inScope.bind fun _ =>
      (blind_stmt ctx e).inScope.bind fun _ => .pure rfl
  | .loop cond body s => by
    rw [Stmt.erase, stmt, stmt]
    exact (blind_expr ctx cond).bind fun _ => (blind_stmt ctx body).inScope.bind fun _ => .pure rfl

theorem blind_stmts (ctx : Context) : ∀ ss : List Stmt,
    Blind Stmt.eraseAll (stmts ctx ss) (stmts ctx.erase (Stmt.eraseAll ss))
  | [] => by
    rw [Stmt.eraseAll, stmts, stmts]
    exact .pure rfl
  | s :: ss => by
    rw [Stmt.eraseAll, stmts, stmts]
    exact (blind_stmt ctx s).bind fun _ => (blind_stmts ctx ss).bind fun _ => .pure rfl

end

/-! ### Declarations -/

theorem params_erase (ctx : Context) (i : Nat) (vs : List Variable) (scopes : Scopes Meaning) :
    params ctx.erase i (vs.map Variable.shape) scopes.erase =
      mapBoth NamingError.erase Scopes.erase (params ctx i vs scopes) := by
  induction vs generalizing i scopes with
  | nil => rfl
  | cons v vs ih =>
    refine mapBoth_bind (type_erase ctx.classes v.type) fun _ => ?_
    have henter : scopes.erase.enter v.shape.name (.param i v.shape) =
        (scopes.enter v.name (.param i v)).map (Option.map Scopes.erase) :=
          scopes.enter_erase v.name (.param i v)
    rw [henter]
    rcases scopes.enter v.name (.param i v) with _ | _ | scopes
    · rfl
    · rfl
    · exact ih (i + 1) scopes

theorem method_erase (ctx : Context) (scopes : Scopes Meaning) (m : Method) :
    method ctx.erase scopes.erase m.erase = mapBoth NamingError.erase Method.erase
      (method ctx scopes m) := by
  refine mapBoth_bind (type_erase ctx.classes m.type) fun _ => ?_
  refine mapBoth_bind (params_erase ctx 0 m.params scopes.openScope) fun scopes => ?_
  have hbody : stmts ctx.erase m.erase.body ⟨scopes.erase, 0⟩ =
      mapResult NamingError.erase State.erase Stmt.eraseAll (stmts ctx m.body ⟨scopes, 0⟩) :=
    blind_stmts ctx m.body ⟨scopes, 0⟩
  rw [hbody]
  cases stmts ctx m.body ⟨scopes, 0⟩ <;> rfl

theorem methods_erase {ctx ctx' : Signature → Nat → Context}
    (hctx : ∀ m k, ctx' m.shape k = (ctx m k).erase) (scopes : Scopes Meaning) (k : Nat)
    (ms : List Method) :
    methods ctx' scopes.erase k (ms.map Method.erase) =
      mapBoth NamingError.erase (List.map Method.erase) (methods ctx scopes k ms) := by
  induction ms generalizing k with
  | nil => rfl
  | cons m ms ih =>
    have hmethod := method_erase (ctx m.toSignature k) scopes m
    rw [← hctx] at hmethod
    exact mapBoth_bind hmethod fun _ => mapBoth_bind (ih (k + 1)) fun _ => rfl

/-- A declaration with its place, without lines. -/
def eraseMember (x : Site × Span × Meaning) : Site × Span × Meaning := (x.1, blank, x.2.2.erase)

theorem mapIdx_map_eq {γ γ' : Type} {f : Nat → β → γ'} {g : α → β} {h : γ → γ'} {k : Nat → α → γ}
    (hk : ∀ i a, f i (g a) = h (k i a)) (l : List α) : (l.map g).mapIdx f = (l.mapIdx k).map h := by
  apply List.ext_getElem?
  intro i
  rw [List.getElem?_mapIdx, List.getElem?_map, List.getElem?_map, List.getElem?_mapIdx]
  cases l[i]? with
  | none => rfl
  | some a => exact congrArg some (hk i a)

theorem members_erase (c : ClassDecl) (i : Nat) :
    members c.erase i = (members c i).map eraseMember := by
  rw [members, members, List.map_append, ClassDecl.erase]
  congr 1
  · apply mapIdx_map_eq
    intro k f
    rfl
  · apply mapIdx_map_eq
    intro k m
    rfl

theorem enterMembers_erase (cls : String) (ds : List (Site × Span × Meaning))
    (scopes : Scopes Meaning) :
    enterMembers cls (ds.map eraseMember) scopes.erase =
      mapBoth NamingError.erase Scopes.erase (enterMembers cls ds scopes) := by
  induction ds generalizing scopes with
  | nil => rfl
  | cons x ds ih =>
    obtain ⟨site, span, d⟩ := x
    have henter :
        scopes.erase.enter d.erase.name d.erase =
          (scopes.enter d.name d).map (Option.map Scopes.erase) := by
      rw [d.name_erase]
      exact scopes.enter_erase d.name d
    rw [List.map_cons, eraseMember, enterMembers, enterMembers, henter, d.name_erase]
    rcases scopes.enter d.name d with _ | _ | scopes
    · rfl
    · rfl
    · exact ih scopes

theorem fieldTypes_erase (classes : List ClassDecl) (fs : List Field) :
    fieldTypes (classes.map ClassDecl.erase) (fs.map Field.shape) =
      mapBoth NamingError.erase id (fieldTypes classes fs) := by
  induction fs with
  | nil => rfl
  | cons f fs ih => exact mapBoth_bind (type_erase classes f.type) fun _ => ih

theorem classDecl_erase (classes : List ClassDecl) (scopes : Scopes Meaning) (i : Nat)
    (c : ClassDecl) :
    classDecl (classes.map ClassDecl.erase) scopes.erase i c.erase =
      mapBoth NamingError.erase ClassDecl.erase (classDecl classes scopes i c) := by
  have hmembers := enterMembers_erase c.name (members c i) scopes.openScope
  rw [← members_erase] at hmembers
  refine mapBoth_bind hmembers fun scopes =>
    mapBoth_bind (fieldTypes_erase classes c.fields) fun _ => ?_
  exact mapBoth_bind (methods_erase (fun _ _ => rfl) scopes 0 c.methods) fun _ => rfl

theorem enterClasses_erase (i : Nat) (cs : List ClassDecl) (scopes : Scopes Meaning) :
    enterClasses i (cs.map ClassDecl.erase) scopes.erase =
      mapBoth NamingError.erase Scopes.erase (enterClasses i cs scopes) := by
  induction cs generalizing i scopes with
  | nil => rfl
  | cons c cs ih =>
    have henter : scopes.erase.enter c.erase.name (.cls c.erase.name) =
        (scopes.enter c.name (.cls c.name)).map (Option.map Scopes.erase) :=
          scopes.enter_erase c.name (.cls c.name)
    rw [List.map_cons, enterClasses, enterClasses, henter]
    rcases scopes.enter c.name (.cls c.name) with _ | _ | scopes
    · rfl
    · rfl
    · exact ih (i + 1) scopes

theorem classDecls_erase (classes : List ClassDecl) (scopes : Scopes Meaning) (i : Nat)
    (cs : List ClassDecl) :
    classDecls (classes.map ClassDecl.erase) scopes.erase i (cs.map ClassDecl.erase) =
      mapBoth NamingError.erase (List.map ClassDecl.erase) (classDecls classes scopes i cs) := by
  induction cs generalizing i with
  | nil => rfl
  | cons c cs ih =>
    exact mapBoth_bind (classDecl_erase classes scopes i c) fun _ =>
      mapBoth_bind (ih (i + 1)) fun _ => rfl

end Resolve

open Resolve in
/-- Resolving a program without lines gives the resolved program without lines, or the same
refusal. -/
theorem Program.resolve_erase (p : Program) :
    p.erase.resolve = mapBoth NamingError.erase Program.erase p.resolve := by
  refine mapBoth_bind (enterClasses_erase 0 p.classes predefined) fun scopes => ?_
  rw [allClasses_erase]
  exact mapBoth_bind (classDecls_erase p.allClasses scopes 0 p.classes) fun _ => rfl

end MiniJava
