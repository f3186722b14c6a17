import MiniJava.Proofs.Scope.Declared
/-!
Methods are read alike wherever the same names are found. Classes and scopes are only ever searched
by name, so a method that can be read among some declarations can be read among others that give the
same answers, and means the same there.
-/
namespace MiniJava

/-! ### Scopes -/

namespace Scopes

/-- The scopes as functions of names. -/
def lookups (s : Scopes Meaning) : List (String → Option Meaning) :=
  s.levels.map fun level name => level.lookup name

/-- Scopes in which every search finds the same. -/
structure Agrees (s t : Scopes Meaning) : Prop where
  lookups : s.lookups = t.lookups
  declaring : s.declaring = t.declaring

variable {s t : Scopes Meaning}

theorem find?_eq_findSome?_lookups (s : Scopes Meaning) (name : String) :
    s.find? name = s.lookups.findSome? (· name) := by
  rw [lookups, List.findSome?_map]
  rfl

theorem findAt?_eq_bind_lookups (s : Scopes Meaning) (level : Nat) (name : String) :
    s.findAt? level name = (s.lookups.reverse[level]?).bind (· name) := by
  rw [findAt?, lookups, ← List.map_reverse, List.getElem?_map, Option.bind_map]
  rfl

/-- Which scopes are rivals hangs on their number only. -/
theorem isTaken_eq_any_lookups (s : Scopes Meaning) (name : String) :
    s.isTaken name = (s.lookups.take 1 ++ (s.lookups.drop 1).take (s.lookups.length - 3)).any
      fun l => (l name).isSome := by
  rw [lookups, List.length_map, ← List.map_take, ← List.map_drop, ← List.map_take,
    ← List.map_append, List.any_map, isTaken]
  cases h : s.levels with
  | nil => rfl
  | cons inner outer =>
    have hlength : (inner :: outer).length - 3 = outer.length - 2 := by
      rw [List.length_cons]
      omega
    rw [hlength]
    rfl

theorem Agrees.find? (h : s.Agrees t) (name : String) : s.find? name = t.find? name := by
  rw [find?_eq_findSome?_lookups, find?_eq_findSome?_lookups, h.lookups]

theorem Agrees.findMethod (h : s.Agrees t) (name : String) :
    s.findMethod Meaning.kind name = t.findMethod Meaning.kind name := by
  rw [Scopes.findMethod, Scopes.findMethod, findAt?_eq_bind_lookups, findAt?_eq_bind_lookups,
    h.lookups]

theorem Agrees.isTaken (h : s.Agrees t) (name : String) : s.isTaken name = t.isTaken name := by
  rw [isTaken_eq_any_lookups, isTaken_eq_any_lookups, h.lookups]

theorem Agrees.isBeingDeclared (h : s.Agrees t) (name : String) :
    s.isBeingDeclared name = t.isBeingDeclared name := by
  rw [Scopes.isBeingDeclared, Scopes.isBeingDeclared, h.declaring]

theorem Agrees.openScope (h : s.Agrees t) : s.openScope.Agrees t.openScope :=
  ⟨congrArg (_ :: ·) h.lookups, h.declaring⟩

theorem Agrees.startDeclaring (h : s.Agrees t) (name : String) :
    (s.startDeclaring name).Agrees (t.startDeclaring name) :=
  ⟨h.lookups, rfl⟩

theorem Agrees.enter {s' : Scopes Meaning} {name : String} {d : Meaning} (h : s.Agrees t)
    (he : s.enter name d = .ok (some s')) :
    ∃ t', t.enter name d = .ok (some t') ∧ s'.Agrees t' := by
  obtain ⟨inner, outer, hs, htaken, rfl⟩ := Resolve.enter_eq_some he
  rw [h.isTaken] at htaken
  have hlookups := h.lookups
  rw [Scopes.lookups, Scopes.lookups, hs, List.map_cons] at hlookups
  cases ht : t.levels with
  | nil =>
    rw [ht] at hlookups
    cases hlookups
  | cons inner' outer' =>
    rw [ht, List.map_cons] at hlookups
    obtain ⟨hinner, houter⟩ := List.cons.inj hlookups
    refine ⟨⟨((name, d) :: inner') :: outer', t.declaring⟩, ?_, ?_, h.declaring⟩
    · simp only [Scopes.enter, ht, htaken]
      rfl
    · rw [Scopes.lookups, Scopes.lookups, List.map_cons, List.map_cons, houter]
      congr 1
      funext x
      rw [List.lookup_cons, List.lookup_cons, congrFun hinner x]

end Scopes

namespace Resolve

variable {α β : Type}

/-- Classes that are found under the same names and have the same members. -/
def ClassesAgree (cs ds : List ClassDecl) : Prop :=
  ∀ name c, class? cs name = some c →
    ∃ d, class? ds name = some d ∧ d.name = c.name ∧ ∀ member, d.member? member = c.member? member

/-- `y` succeeds with the outcome of `x`, if there is one. -/
def Follows (x y : Except NamingError α) : Prop := ∀ a, x = .ok a → y = .ok a

namespace Follows

theorem refl (x : Except NamingError α) : Follows x x := fun _ h => h

theorem error (e : NamingError) (y : Except NamingError α) : Follows (.error e) y :=
  fun _ h => by cases h

theorem bind {x y : Except NamingError α} {k k' : α → Except NamingError β} (hx : Follows x y)
    (hk : ∀ a, Follows (k a) (k' a)) : Follows (x >>= k) (y >>= k') := by
  intro b h
  obtain ⟨a, ha, hb⟩ := Except.bind_eq_ok.mp h
  exact Except.bind_eq_ok.mpr ⟨a, hx a ha, hk a b hb⟩

end Follows

theorem ClassesAgree.type {cs ds : List ClassDecl} (h : ClassesAgree cs ds) (t : TypeName) :
    Follows (type cs t) (type ds t) := by
  induction t with
  | int | boolean | void => exact .refl _
  | array elem span ih => exact ih
  | cls id =>
    rw [Resolve.type, Resolve.type]
    cases hc : class? cs id.name with
    | none => exact .error _ _
    | some c =>
      obtain ⟨d, hd, -⟩ := h id.name c hc
      rw [hd]
      exact .refl _

namespace Context

/-- The same method of the same class, among classes that agree. Its place in the program does not
matter. -/
structure Agrees (ctx ctx' : Context) : Prop where
  owner : ctx.owner = ctx'.owner
  method : ctx.method = ctx'.method
  classes : ClassesAgree ctx.classes ctx'.classes

variable {ctx ctx' : Context} {scopes scopes' : Scopes Meaning}

theorem Agrees.classMember (h : ctx.Agrees ctx') {c d : ClassDecl} (hname : d.name = c.name)
    (hmembers : ∀ member, d.member? member = c.member? member) (q : Ref) (id : Ident) :
    ctx.classMember q id c = ctx'.classMember q id d := by
  rw [Context.classMember, Context.classMember, hmembers, hname, h.owner]

theorem Agrees.member (h : ctx.Agrees ctx') (q : Ref) (d : Meaning) (id : Ident) :
    Follows (ctx.member q d id) (ctx'.member q d id) := by
  unfold Context.member
  split
  · exact .error _ _
  · split
    · exact .refl _
    · rename_i name _
      cases hc : class? ctx.classes name with
      | none => exact .error _ _
      | some c =>
        obtain ⟨d, hd, hname, hmembers⟩ := h.classes name c hc
        simp only [hd, h.classMember hname hmembers]
        exact .refl _
    · exact .error _ _

theorem Agrees.bareName (h : ctx.Agrees ctx') (hs : scopes.Agrees scopes') (id : Ident) :
    ctx.bareName scopes id = ctx'.bareName scopes' id := by
  rw [Context.bareName, Context.bareName, hs.isBeingDeclared, hs.find?, h.method]

theorem Agrees.bareCall (h : ctx.Agrees ctx') (hs : scopes.Agrees scopes') (id : Ident) :
    ctx.bareCall scopes id = ctx'.bareCall scopes' id := by
  rw [Context.bareCall, Context.bareCall, hs.findMethod, h.method]

theorem Agrees.ref (h : ctx.Agrees ctx') (hs : scopes.Agrees scopes') (r : Ref) :
    Follows (ctx.ref scopes r) (ctx'.ref scopes' r) := by
  induction r with
  | this span d =>
    rw [Context.ref, Context.ref, h.method, h.owner]
    exact .refl _
  | name id d =>
    rw [Context.ref, Context.ref, h.bareName hs]
    exact .refl _
  | member q id d ih => exact ih.bind fun x => (h.member x.1 x.2 id).bind fun _ => .refl _

theorem Agrees.callee (h : ctx.Agrees ctx') (hs : scopes.Agrees scopes') (r : Ref) :
    Follows (ctx.callee scopes r) (ctx'.callee scopes' r) := by
  cases r with
  | this span d => exact .error _ _
  | name id d =>
    rw [Context.callee, Context.callee, h.bareCall hs]
    exact .refl _
  | member q id d => exact (h.ref hs (.member q id d)).bind fun _ => .refl _

mutual

theorem Agrees.expr (h : ctx.Agrees ctx') (hs : scopes.Agrees scopes') : ∀ e : Expr,
    Follows (ctx.expr scopes e) (ctx'.expr scopes' e)
  | .unary op s e => by
    rw [Context.expr, Context.expr]
    exact (Agrees.expr h hs e).bind fun _ => .refl _
  | .binary op s l r => by
    rw [Context.expr, Context.expr]
    exact (Agrees.expr h hs l).bind fun _ => (Agrees.expr h hs r).bind fun _ => .refl _
  | .ref r => by
    rw [Context.expr, Context.expr]
    exact (h.ref hs r).bind fun _ => .refl _
  | .index r i s => by
    rw [Context.expr, Context.expr]
    exact (h.ref hs r).bind fun _ => (Agrees.expr h hs i).bind fun _ => .refl _
  | .call r args s => by
    rw [Context.expr, Context.expr]
    exact (h.callee hs r).bind fun _ => (Agrees.exprs h hs args).bind fun _ => .refl _
  | .literal l s => by
    rw [Context.expr, Context.expr]
    exact .refl _
  | .newObject c s => by
    rw [Context.expr, Context.expr]
    exact (h.classes.type (.cls c)).bind fun _ => .refl _
  | .newArray t size s => by
    rw [Context.expr, Context.expr]
    exact (h.classes.type t).bind fun _ => (Agrees.expr h hs size).bind fun _ => .refl _

theorem Agrees.exprs (h : ctx.Agrees ctx') (hs : scopes.Agrees scopes') : ∀ es : List Expr,
    Follows (ctx.exprs scopes es) (ctx'.exprs scopes' es)
  | [] => by
    rw [Context.exprs, Context.exprs]
    exact .refl _
  | e :: es => by
    rw [Context.exprs, Context.exprs]
    exact (Agrees.expr h hs e).bind fun _ => (Agrees.exprs h hs es).bind fun _ => .refl _

end

end Context

/-! ### Statements -/

/-- States with the same number of locals, whose scopes agree. -/
structure State.Agrees (s t : State) : Prop where
  scopes : s.scopes.Agrees t.scopes
  locals : s.locals = t.locals

/-- From a state that agrees, `q` succeeds with the outcome of `p`, if there is one, and the states
agree again. -/
def BodyFollows (p q : Body α) : Prop :=
  ∀ s t, s.Agrees t → ∀ a s', p s = .ok a s' → ∃ t', q t = .ok a t' ∧ s'.Agrees t'

namespace BodyFollows

theorem pure (a : α) : BodyFollows (Pure.pure a) (Pure.pure a) := by
  intro s t h b s' hb
  obtain ⟨rfl, rfl⟩ := EStateM.pure_eq_ok.mp hb
  exact ⟨t, rfl, h⟩

theorem bind {p q : Body α} {k k' : α → Body β} (hp : BodyFollows p q)
    (hk : ∀ a, BodyFollows (k a) (k' a)) : BodyFollows (p >>= k) (q >>= k') := by
  intro s t h b s' hb
  obtain ⟨a, u, ha, hb⟩ := EStateM.bind_eq_ok.mp hb
  obtain ⟨u', ha', hu⟩ := hp s t h a u ha
  obtain ⟨t', hb', ht⟩ := hk a u u' hu b s' hb
  exact ⟨t', (EStateM.bind_of_ok ha').trans hb', ht⟩

theorem reading {f g : Scopes Meaning → Except NamingError α}
    (h : ∀ scopes scopes', scopes.Agrees scopes' → Follows (f scopes) (g scopes')) :
    BodyFollows (reading f) (reading g) := by
  intro s t hst a s' ha
  obtain ⟨hf, rfl⟩ := reading_eq_ok.mp ha
  exact ⟨t, reading_eq_ok.mpr ⟨h _ _ hst.scopes a hf, rfl⟩, hst⟩

theorem inScope {p q : Body α} (h : BodyFollows p q) : BodyFollows (inScope p) (inScope q) := by
  intro s t hst a s' ha
  obtain ⟨u, hu, rfl⟩ := inScope_eq_ok ha
  have hopen :
      State.Agrees { s with scopes := s.scopes.openScope }
      { t with scopes := t.scopes.openScope } :=
    ⟨hst.scopes.openScope, hst.locals⟩
  obtain ⟨u', hu', hagrees⟩ := h _ _ hopen a u hu
  refine ⟨u'.leave, ?_, ⟨?_, hagrees.scopes.declaring⟩, hagrees.locals⟩
  · rw [Resolve.inScope, hu']
  · have htail := congrArg List.tail hagrees.scopes.lookups
    rwa [Scopes.lookups, Scopes.lookups, ← List.map_tail, ← List.map_tail] at htail

end BodyFollows

variable {ctx ctx' : Context}

theorem declareLocal_follows (ctx ctx' : Context) (v : Variable) :
    BodyFollows (declareLocal ctx v) (declareLocal ctx' v) := by
  intro s t hst a s' ha
  rw [Resolve.declareLocal] at ha
  split at ha
  · rename_i scopes hscopes
    cases ha
    obtain ⟨scopes', hscopes', hagrees⟩ := hst.scopes.enter hscopes
    rw [hst.locals] at hscopes'
    refine ⟨⟨scopes', t.locals + 1⟩, ?_, hagrees, congrArg (· + 1) hst.locals⟩
    rw [Resolve.declareLocal, hscopes']
  · cases ha

theorem Context.Agrees.readExpr (h : ctx.Agrees ctx') (e : Expr) :
    BodyFollows (reading fun scopes => ctx.expr scopes e) (reading fun scopes =>
      ctx'.expr scopes e) :=
  .reading fun _ _ hs => h.expr hs e

theorem Context.Agrees.readRef (h : ctx.Agrees ctx') (r : Ref) :
    BodyFollows (reading fun scopes => ctx.ref scopes r) (reading fun scopes =>
      ctx'.ref scopes r) :=
  .reading fun _ _ hs => h.ref hs r

mutual

theorem Context.Agrees.stmt (h : ctx.Agrees ctx') :
    ∀ s : Stmt, BodyFollows (stmt ctx s) (stmt ctx' s)
  | .block body s => by
    rw [Resolve.stmt, Resolve.stmt]
    exact (Context.Agrees.stmts h body).inScope.bind fun _ => .pure _
  | .declare v init s => by
    have htype :
        BodyFollows (reading fun _ => type ctx.classes v.type) (reading fun _ =>
        type ctx'.classes v.type) :=
      .reading fun _ _ _ => h.classes.type v.type
    have hinit : BodyFollows (initializer ctx v init) (initializer ctx' v init) :=
      .reading fun _ _ hs => h.expr (hs.startDeclaring v.name) init
    rw [Resolve.stmt, Resolve.stmt]
    exact htype.bind fun _ => (declareLocal_follows ctx ctx' v).bind fun _ => hinit.bind fun _ =>
      .pure _
  | .assign r value s => by
    rw [Resolve.stmt, Resolve.stmt]
    exact (h.readRef r).bind fun _ => (h.readExpr value).bind fun _ => .pure _
  | .assignIndex r i value s => by
    rw [Resolve.stmt, Resolve.stmt]
    exact (h.readRef r).bind fun _ => (h.readExpr i).bind fun _ => (h.readExpr value).bind fun _ =>
      .pure _
  | .call r args s => by
    have hcallee :
        BodyFollows (reading fun scopes => ctx.callee scopes r) (reading fun scopes =>
        ctx'.callee scopes r) :=
      .reading fun _ _ hs => h.callee hs r
    have hargs :
        BodyFollows (reading fun scopes => ctx.exprs scopes args) (reading fun scopes =>
        ctx'.exprs scopes args) :=
      .reading fun _ _ hs => h.exprs hs args
    rw [Resolve.stmt, Resolve.stmt]
    exact hcallee.bind fun _ => hargs.bind fun _ => .pure _
  | .ret none s => by
    rw [Resolve.stmt, Resolve.stmt]
    exact .pure _
  | .ret (some value) s => by
    rw [Resolve.stmt, Resolve.stmt]
    exact (h.readExpr value).bind fun _ => .pure _
  | .ifThen cond t s => by
    rw [Resolve.stmt, Resolve.stmt]
    exact (h.readExpr cond).bind fun _ => (Context.Agrees.stmt h t).inScope.bind fun _ => .pure _
  | .ifElse cond t e s => by
    rw [Resolve.stmt, Resolve.stmt]
    exact (h.readExpr cond).bind fun _ => (Context.Agrees.stmt h t).inScope.bind fun _ =>
      (Context.Agrees.stmt h e).inScope.bind fun _ => .pure _
  | .loop cond body s => by
    rw [Resolve.stmt, Resolve.stmt]
    exact (h.readExpr cond).bind fun _ => (Context.Agrees.stmt h body).inScope.bind fun _ => .pure _

theorem Context.Agrees.stmts (h : ctx.Agrees ctx') :
    ∀ ss : List Stmt, BodyFollows (stmts ctx ss) (stmts ctx' ss)
  | [] => by
    rw [Resolve.stmts, Resolve.stmts]
    exact .pure _
  | s :: ss => by
    rw [Resolve.stmts, Resolve.stmts]
    exact (Context.Agrees.stmt h s).bind fun _ => (Context.Agrees.stmts h ss).bind fun _ => .pure _

end

/-! ### Methods -/

theorem Context.Agrees.params (h : ctx.Agrees ctx') {i : Nat} {vs : List Variable}
    {s t s' : Scopes Meaning} (hs : s.Agrees t) (hparams : params ctx i vs s = .ok s') :
    ∃ t', params ctx' i vs t = .ok t' ∧ s'.Agrees t' := by
  induction vs generalizing i s t with
  | nil =>
    cases hparams
    exact ⟨t, rfl, hs⟩
  | cons v vs ih =>
    obtain ⟨u, htype, hrest⟩ := Except.bind_eq_ok.mp hparams
    split at hrest
    · rename_i s₁ henter
      obtain ⟨t₁, henter', hs₁⟩ := hs.enter henter
      obtain ⟨t', ht', hagrees⟩ := ih hs₁ hrest
      refine ⟨t', ?_, hagrees⟩
      refine Except.bind_eq_ok.mpr ⟨u, h.classes.type v.type u htype, ?_⟩
      rw [henter']
      exact ht'
    · cases hrest

theorem Context.Agrees.method_follows (h : ctx.Agrees ctx') {s t : Scopes Meaning}
    (hs : s.Agrees t) (m : Method) :
    Follows (Resolve.method ctx s m) (Resolve.method ctx' t m) := by
  intro m' hm
  obtain ⟨u, htype, hm⟩ := Except.bind_eq_ok.mp hm
  obtain ⟨s₁, hparams, hm⟩ := Except.bind_eq_ok.mp hm
  obtain ⟨t₁, hparams', hs₁⟩ := h.params hs.openScope hparams
  refine Except.bind_eq_ok.mpr ⟨u, h.classes.type m.type u htype, ?_⟩
  refine Except.bind_eq_ok.mpr ⟨t₁, hparams', ?_⟩
  split at hm
  · rename_i body s₂ hbody
    obtain ⟨t₂, hbody', -⟩ := h.stmts m.body ⟨s₁, 0⟩ ⟨t₁, 0⟩ ⟨hs₁, rfl⟩ body s₂ hbody
    rw [hbody']
    exact hm
  · cases hm

end Resolve

end MiniJava
