import MiniJava.Proofs.Simulation.Expressions
/-!
The code of statements, methods and loops does what the evaluator does, with any amount of fuel.
-/
namespace MiniJava.Simulation

open Generate Machine Semantics

variable {p : Program} {H : Host p} {A : Activation} {σ : Store} {env : Env} {vars : List Local}
  {frame : Frame}
  {R : Reentry} {n start : Nat}

section Assignment

variable {a : Val} {ops : List Word}

theorem Activation.Valid.setParam {i : Nat} {x : Variable} (hA : A.Valid H σ env vars)
    (hx : A.method.params[i]? = some x) (ha : σ.world.Has x.type.ty a) :
    A.Valid H σ { env with params := env.params.set i a } vars where
  store := hA.store
  params := forall₂_set hA.params hx ha
  locals := hA.locals
  self := hA.self
  chain := hA.chain

theorem Activation.Valid.setLocal {k : Nat} {vars' : List Local} (hA : A.Valid H σ env vars)
    (hvars : ∀ x ∈ vars', x.1 ≠ k → x ∈ vars)
    (ha : ∀ x ∈ vars', x.1 = k → σ.world.Has x.2.type.ty a) :
    A.Valid H σ (env.setLocal k a) vars' where
  store := hA.store
  params := hA.params
  locals x hx := by
    simp only [Env.setLocal]
    split
    · rename_i hk
      exact ha x hx hk
    · rename_i hk
      exact hA.locals x (hvars x hx hk)
  self := hA.self
  chain := hA.chain

theorem writeStaticOf_eq {classes : List ClassHead} {owner name : String} {i : Nat}
    (h : staticSlot? classes owner name = some i) :
    writeStaticOf classes owner name a = (do writeStatic i a; Pure.pure ()) := by
  rw [writeStaticOf, h]
  rfl

theorem writeFieldOf_eq {classes : List ClassHead} {object : Val} {owner name : String} {i : Nat}
    (h : fieldSlot? classes owner name = some i) :
    writeFieldOf classes object owner name a = Semantics.writeField object i a := by
  rw [writeFieldOf, h]
  rfl

theorem sim_storeField (hA : A.Valid H σ env vars) {owner : String} {f : Field}
    {place : FieldPlace} (hf : (A.setting p).HasField owner f)
    (hplace : p.classLayouts.field? owner f.name = some place)
    (hown : f.isStatic = false → A.method.isStatic = false ∧ owner = A.owner)
    (hcarries : H.Carries A start (within vars [.storeField place]))
    (ha : σ.world.Has f.type.ty a) :
    H.Sim n (if f.isStatic then writeStaticOf p.heads owner f.name a
      else writeFieldOf p.heads env.self owner f.name a)
      σ (H.view A σ env vars start (ops ++ [σ.world.word a]))
      (fun _ => H.Leaves A σ env vars (start + 1) ops) := by
  cases hs : f.isStatic with
  | true =>
    obtain ⟨i, hi, hslot, hget⟩ := H.accepted.bound.staticField rfl hf hs
    cases hplace.symm.trans hi
    obtain ⟨v, hv, -⟩ := forall₂_getElem? hA.store.statics hget
    have hstore := hA.store.writeStatic hget ha
    rw [if_pos rfl, writeStaticOf_eq hslot]
    refine .storeStatic hA hcarries (List.getElem?_eq_some_iff.mp hv).1 (.pure ?_)
    exact ⟨List.prefix_refl _, hA.of_store (List.prefix_refl _) (by simp) hstore, rfl⟩
  | false =>
    obtain ⟨hmethod, rfl⟩ := hown hs
    obtain ⟨i, hi, hslot, hcell⟩ := H.accepted.bound.instanceField rfl hf hs
    cases hplace.symm.trans hi
    rw [if_neg nofun, writeFieldOf_eq hslot]
    exact .writeOwn hA hmethod hcarries hcell ha

theorem storable_of_place (H : Host p) (hframe : A.Framed frame vars) {r : Ref} {d : Meaning}
    (h : (A.setting p).Binds vars r d) (hplace : d.isPlace = true) : d.ty.isStorable = true := by
  refine storable_of_binds H hframe h ?_
  cases h with
  | this | cls | method | length | memberMethod => cases hplace
  | field | param | localVar | memberField => rfl

theorem Host.Leaves.of_grows {σ₁ σ' : Store} {env' : Env} {pc : Nat} {v : View}
    (hgrows : σ.world <+: σ₁.world) (h : H.Leaves A σ₁ env' vars pc ops σ' v) :
    H.Leaves A σ env' vars pc ops σ' v :=
  ⟨hgrows.trans h.grows, h.valid, h.view⟩

/-- An expression whose value a place of a type can hold. -/
structure Activation.Offers (p : Program) (A : Activation) (vars : List Local) (value : Expr)
    (t : Ty) : Prop where
  bound : (A.setting p).ExprBound vars value
  typed : ∃ t', value.HasTy t' ∧ t.Accepts t' ∧ t' ≠ .void

theorem sim_offered (hR : H.FollowsCalls n R) (hframe : A.Framed frame vars) {value : Expr} {t : Ty}
    (hvalue : A.Offers p vars value t) {code : List Item}
    (hcode : Generate.expr p.classLayouts frame start value = .ok code)
    (hcarries : H.Carries A start (within vars code)) (hA : A.Valid H σ env vars) :
    H.Sim (n + 1) (Semantics.expr p.heads env R value) σ (H.view A σ env vars start ops)
      (H.Pushes A σ env vars (start + code.length) ops t) := by
  obtain ⟨t', hty, haccepts, hvoid⟩ := hvalue.typed
  exact (sim_expr hR value hframe hty hvoid hvalue.bound hcode hcarries hA ops).weaken
    (Nat.le_refl _)
    fun _ _ _ h => ⟨h.leaves, .accepts haccepts h.has⟩

section Targets

variable {value : Expr} {code : List Item} (hR : H.FollowsCalls n R) (hframe : A.Framed frame vars)
  (hA : A.Valid H σ env vars)

include hR hframe hA

theorem sim_assignField {owner : String} {f : Field} {place : FieldPlace}
    (hf : (A.setting p).HasField owner f)
    (hplace : p.classLayouts.field? owner f.name = some place)
    (hown : f.isStatic = false → A.method.isStatic = false ∧ owner = A.owner)
    (hvalue : A.Offers p vars value f.type.ty)
    (hcode : (· ++ [.storeField place]) <$> Generate.expr p.classLayouts frame start value =
      .ok code) (hcarries : H.Carries A start (within vars code)) :
    H.Sim (n + 1) (Semantics.expr p.heads env R value >>= fun a =>
      (if f.isStatic then writeStaticOf p.heads owner f.name a
        else writeFieldOf p.heads env.self owner f.name a) >>= fun _ =>
        pure env) σ (H.view A σ env vars start [])
      (fun env' => H.Leaves A σ env' vars (start + code.length) []) := by
  obtain ⟨first, hfirst, hrest⟩ := Except.bind_eq_ok.mp hcode
  cases hrest
  obtain ⟨hcarries₁, hcarries₂⟩ := hcarries.within_append
  refine .bind (sim_offered hR hframe hvalue hfirst hcarries₁ hA) ?_
  rintro a σ₁ v ⟨⟨hgrows, hvalid, rfl⟩, hty⟩
  refine .bind (sim_storeField hvalid hf hplace hown hcarries₂ hty) fun _ σ₂ v hleaves => .pure ?_
  rw [List.length_append, ← Nat.add_assoc]
  exact hleaves.of_grows hgrows

theorem sim_assignParam {id : Ident} {i : Nat} {x : Variable} (hx : A.method.params[i]? = some x)
    (hvalue : A.Offers p vars value x.type.ty)
    (hcode : Generate.assign p.classLayouts frame start value (.name id (some (.param i x))) =
      .ok code) (hcarries : H.Carries A start (within vars code)) :
    H.Sim (n + 1) (Semantics.assign p.heads env R value (.name id (some (.param i x)))) σ
      (H.view A σ env vars start [])
      (fun env' => H.Leaves A σ env' vars (start + code.length) []) := by
  obtain ⟨first, hfirst, hrest⟩ := Except.bind_eq_ok.mp hcode
  cases hrest
  obtain ⟨hcarries₁, hcarries₂⟩ := hcarries.within_append
  have hlt : i < env.params.length := by
    rw [← hA.params.length_eq]
    exact (List.getElem?_eq_some_iff.mp hx).1
  rw [Semantics.assign]
  refine .bind (sim_offered hR hframe hvalue hfirst hcarries₁ hA) ?_
  rintro a σ₁ v ⟨⟨hgrows, hvalid, rfl⟩, hty⟩
  refine .storeParam hvalid hframe.params hcarries₂ hlt (.pure ⟨hgrows, hvalid.setParam hx hty, ?_⟩)
  rw [List.length_append, ← Nat.add_assoc]
  rfl

theorem sim_assignLocal {id : Ident} {i : Nat} {x : Variable} (hx : (i, x) ∈ vars)
    (hvalue : A.Offers p vars value x.type.ty)
    (hcode : Generate.assign p.classLayouts frame start value (.name id (some (.localVar i x))) =
      .ok code) (hcarries : H.Carries A start (within vars code)) :
    H.Sim (n + 1) (Semantics.assign p.heads env R value (.name id (some (.localVar i x)))) σ
      (H.view A σ env vars start [])
      (fun env' => H.Leaves A σ env' vars (start + code.length) []) := by
  obtain ⟨j, hj⟩ := List.mem_iff_getElem?.mp hx
  simp only [Generate.assign, hframe.places j _ hj, placed] at hcode
  obtain ⟨first, hfirst, hrest⟩ := Except.bind_eq_ok.mp hcode
  cases hrest
  obtain ⟨hcarries₁, hcarries₂⟩ := hcarries.within_append
  have hdistinct := distinct_of_places hframe.places
  rw [Semantics.assign]
  refine .bind (sim_offered hR hframe hvalue hfirst hcarries₁ hA) ?_
  rintro a σ₁ v ⟨⟨hgrows, hvalid, rfl⟩, hty⟩
  have hvalid' : A.Valid H σ₁ (env.setLocal i a) vars := by
    refine hvalid.setLocal (fun y hy _ => hy) fun y hy hnumber => ?_
    obtain ⟨l, hl⟩ := List.mem_iff_getElem?.mp hy
    cases hdistinct l j _ _ hl hj hnumber
    cases hl.symm.trans hj
    exact hty
  refine .storeLocal hvalid hdistinct hcarries₂ hj (.pure ⟨hgrows, hvalid', ?_⟩)
  rw [List.length_append, ← Nat.add_assoc]
  rfl

theorem sim_assignMember {q : Ref} {d : Meaning} {owner : String} {f : Field} {i : Nat}
    (hq : (A.setting p).Binds vars q d) (hqv : q.isValue = true) (htq : d.ty = .cls owner)
    (hf : (A.setting p).HasField owner f) (hstatic : f.isStatic = false)
    (hplace : p.classLayouts.field? owner f.name = some ⟨i, false⟩)
    (hvalue : A.Offers p vars value f.type.ty)
    (hcode : (do
      let object ← Generate.ref p.classLayouts frame q
      let first ← Generate.expr p.classLayouts frame (start + object.length + 1) value
      return object ++ [Item.literal (Word.ofNat i)] ++ first ++ [Item.prim .fieldupd]) = .ok code)
    (hcarries : H.Carries A start (within vars code)) :
    H.Sim (n + 1) (do
      let object ← Semantics.ref p.heads env q
      writeFieldOf p.heads object owner f.name (← Semantics.expr p.heads env R value)
      return env) σ (H.view A σ env vars start [])
      (fun env' => H.Leaves A σ env' vars (start + code.length) []) := by
  obtain ⟨object, hobject, hcode₁⟩ := Except.bind_eq_ok.mp hcode
  obtain ⟨first, hfirst, hrest⟩ := Except.bind_eq_ok.mp hcode₁
  cases hrest
  obtain ⟨hcarries₁, hupdate⟩ := hcarries.within_append
  obtain ⟨hcarries₂, hvalueCode⟩ := hcarries₁.within_append
  obtain ⟨hobjectCode, hliteral⟩ := hcarries₂.within_append
  obtain ⟨i', hplace', hslot, hcell⟩ := H.accepted.bound.instanceField rfl hf hstatic
  cases hplace.symm.trans hplace'
  simp only [writeFieldOf_eq hslot]
  refine .bind (sim_ref hframe hq hqv hobject hobjectCode hA) ?_
  rintro object' σ₁ v ⟨⟨hgrows₁, hvalid₁, rfl⟩, hty₁⟩
  rw [htq] at hty₁
  refine .literal hvalid₁ hliteral ?_
  rw [List.length_append, ← Nat.add_assoc] at hvalueCode
  refine .bind (sim_offered hR hframe hvalue hfirst hvalueCode hvalid₁) ?_
  rintro a σ₂ v ⟨⟨hgrows₂, hvalid₂, rfl⟩, hty₂⟩
  simp only [List.length_append, ← Nat.add_assoc] at hupdate
  rw [← hty₁.word_eq hgrows₂]
  refine .bind (.writeField hvalid₂ hupdate (hty₁.mono hgrows₂) hcell hty₂) fun _ σ₃ v hleaves =>
    .pure ?_
  simp only [List.length_append, ← Nat.add_assoc]
  exact hleaves.of_grows (hgrows₁.trans hgrows₂)

theorem sim_assign {r : Ref} {d : Meaning} (h : (A.setting p).Binds vars r d)
    (hplace : d.isPlace = true) (hvalue : A.Offers p vars value d.ty)
    (hcode : Generate.assign p.classLayouts frame start value r = .ok code)
    (hcarries : H.Carries A start (within vars code)) :
    H.Sim (n + 1) (Semantics.assign p.heads env R value r) σ (H.view A σ env vars start [])
      (fun env' => H.Leaves A σ env' vars (start + code.length) []) := by
  cases h with
  | this | cls | method | length | memberMethod => cases hplace
  | @field id f hf hs =>
    obtain ⟨i, hi⟩ := H.accepted.bound.laid.hasField hf
    simp only [Generate.assign, hi, placed, Except.ok_bind] at hcode
    refine .of_eq ?_ (sim_assignField hR hframe hA hf hi
      (fun hstatic => ⟨hs hstatic, rfl⟩) hvalue hcode hcarries)
    cases hstatic : f.isStatic <;> simp only [Semantics.assign, hstatic] <;> rfl
  | param hx => exact sim_assignParam hR hframe hA hx hvalue hcode hcarries
  | localVar hx => exact sim_assignLocal hR hframe hA hx hvalue hcode hcarries
  | @memberField q dq id c f hq hk htq hf hs =>
    obtain ⟨i, hi⟩ := H.accepted.bound.laid.hasField hf
    rw [assign_memberField hi] at hcode
    cases hstatic : f.isStatic with
    | true =>
      rw [hstatic] at hi hcode
      rw [Bool.true_or, if_pos rfl] at hcode
      refine .of_eq ?_ (sim_assignField hR hframe hA hf hi
        (fun h => Bool.noConfusion (hstatic.symm.trans h)) hvalue
        hcode hcarries)
      simp only [Semantics.assign, hstatic]
      rfl
    | false =>
      cases hthis : isThis q with
      | true =>
        rw [hthis, Bool.or_true, if_pos rfl] at hcode
        cases hq with
        | this hm =>
          cases htq
          refine .of_eq ?_ (sim_assignField hR hframe hA hf hi
            (fun _ => ⟨hm, rfl⟩) hvalue hcode hcarries)
          simp only [Semantics.assign, hstatic]
          rfl
        | _ => cases hthis
      | false =>
        rw [hstatic] at hi hcode
        rw [hthis] at hcode
        simp only [Semantics.assign, hstatic, Bool.false_eq_true, if_false]
        exact sim_assignMember hR hframe hA hq (hs hstatic) htq hf hstatic hi hvalue hcode hcarries

end Targets

end Assignment

/-- How a statement leaves an activation: at the next instruction, or by a return. -/
def Host.Flows (H : Host p) (A : Activation) (σ : Store) (vars : List Local)
    (pc : Nat) : Flow → Store → View → Prop
  | .next env => H.Leaves A σ env vars pc []
  | .returned r => H.Returns A σ A.method.type.ty r

theorem Host.Flows.of_grows {σ₁ σ' : Store} {pc : Nat} {v : View} {flow : Flow}
    (hgrows : σ.world <+: σ₁.world)
    (h : H.Flows A σ₁ vars pc flow σ' v) : H.Flows A σ vars pc flow σ' v := by
  cases flow with
  | next env => exact Host.Leaves.of_grows hgrows h
  | returned r =>
    have h : H.Returns A σ₁ A.method.type.ty r σ' v := h
    exact ⟨hgrows.trans h.grows, h.store, h.result, h.view⟩

/-- A statement whose code stands at an address. -/
structure Host.Placed (H : Host p) (A : Activation) (frame : Frame) (vars : List Local)
    (start : Nat) (s : Stmt) (code : Scoped) (after : Frame) : Prop where
  framed : A.Framed frame vars
  fits : Fits frame vars
  typed : s.WellTyped A.method
  bound : (A.setting p).StmtBound frame.locals.length vars s
  admitted : ∀ v ∈ s.locals, v.Admitted
  made : scopedStmt p.classLayouts start frame vars s = .ok (code, after)
  carries : H.Carries A start code

/-- Statements in order whose code stands at an address. -/
structure Host.PlacedAll (H : Host p) (A : Activation) (frame : Frame) (vars : List Local)
    (start : Nat) (ss : List Stmt) (code : Scoped) (after : Frame) (vars' : List Local) : Prop where
  framed : A.Framed frame vars
  fits : Fits frame vars
  typed : Stmt.AllWellTyped A.method ss
  bound : (A.setting p).StmtsBound frame.locals.length vars ss
  admitted : ∀ v ∈ Stmt.localsOf ss, v.Admitted
  made : scopedStmts p.classLayouts start frame vars ss = .ok (code, after, vars')
  carries : H.Carries A start code

/-- Further rounds of loops with the fuel that is left are followed, from the test of the loop
on. -/
def Host.FollowsLoops (H : Host p) (n : Nat) (R : Reentry) : Prop :=
  ∀ (A : Activation) (frame after : Frame) (vars : List Local) (top : Nat) (cond : Expr)
    (body : Stmt) (code : Scoped) (test : List Item) (σ : Store) (env : Env),
    H.Placed A frame vars top body code after → body.isDeclaration = false → cond.HasTy .boolean →
    (A.setting p).ExprBound vars cond →
      Generate.expr p.classLayouts after (top + code.length) cond = .ok test →
    H.Carries A (top + code.length) (within vars (test ++ [.jumpIf 1 top])) → A.Valid H σ env vars →
    H.Sim n (R.loop frame.locals.length env cond body) σ
      (H.view A σ env vars (top + code.length) [])
      (H.Flows A σ vars (top + code.length + (test.length + 1)))

/-- A statement is followed wherever its code stands. -/
def Host.FollowsStmt (H : Host p) (n : Nat) (R : Reentry) (s : Stmt) : Prop :=
  ∀ {A : Activation} {frame after : Frame} {vars : List Local} {start : Nat} {code : Scoped}
    {σ : Store} {env : Env},
    H.Placed A frame vars start s code after → A.Valid H σ env vars →
    H.Sim (n + 1) (exec p.heads R frame.locals.length env s) σ (H.view A σ env vars start [])
      (H.Flows A σ (s.seen frame.locals.length vars) (start + code.length))

/-- Statements in order are followed wherever their code stands. -/
def Host.FollowsStmts (H : Host p) (n : Nat) (R : Reentry) (ss : List Stmt) : Prop :=
  ∀ {A : Activation} {frame after : Frame} {vars vars' : List Local} {start : Nat}
    {code : Scoped} {σ : Store} {env : Env},
    H.PlacedAll A frame vars start ss code after vars' → A.Valid H σ env vars →
    H.Sim (n + 1) (execs p.heads R frame.locals.length env ss) σ (H.view A σ env vars start [])
      (H.Flows A σ vars' (start + code.length))

section Places

variable {s : Stmt} {code : Scoped} {after : Frame}

theorem Activation.Framed.grow {count : Nat} (h : A.Framed frame vars)
    (hgrows : Grows frame after count) : A.Framed after vars where
  params := hgrows.params.trans h.params
  places j x hx := hgrows.getElem? (h.places j x hx)
  storableParams := h.storableParams
  storableLocals := h.storableLocals

theorem grows_declare (frame : Frame) : Grows frame frame.declare 1 :=
  ⟨rfl, List.prefix_append _ _, by simp [Frame.declare]⟩

/-- The frame after a statement, and what can be seen then. -/
theorem Host.Placed.grows (h : H.Placed A frame vars start s code after) :
    A.Framed after (s.seen frame.locals.length vars) ∧
      Fits after (s.seen frame.locals.length vars) ∧
      Grows frame after s.locals.length := by
  obtain ⟨hfits, hgrows⟩ := scopedStmt_grows h.typed h.fits h.made
  refine ⟨⟨hgrows.params.trans h.framed.params, hfits.places, h.framed.storableParams, ?_⟩, hfits,
    hgrows⟩
  intro x hx
  cases s with
  | declare v init sp =>
    rcases List.mem_append.mp hx with hx | hx
    · exact h.framed.storableLocals x hx
    · cases List.mem_singleton.mp hx
      exact (h.admitted v List.mem_cons_self).storable
  | _ => exact h.framed.storableLocals x hx

theorem Host.Placed.simple (h : H.Placed A frame vars start s code after) (hs : isSimple s = true) :
    ∃ items, stmt p.classLayouts start frame s = .ok (items, after) ∧ code = within vars items := by
  have hcode := h.made
  rw [scopedStmt_simple hs] at hcode
  obtain ⟨⟨items, frame'⟩, hitems, hrest⟩ := Except.bind_eq_ok.mp hcode
  cases hrest
  exact ⟨items, hitems, rfl⟩

theorem number_lt {x : Local} (h : Fits frame vars)
    (hx : x ∈ vars) : x.1 < frame.locals.length := by
  obtain ⟨j, hj⟩ := List.mem_iff_getElem?.mp hx
  exact (List.getElem?_eq_some_iff.mp (h.places j x hj)).1

theorem view_declare {k pc : Nat} {v : Variable} {a : Val} (hk : ∀ x ∈ vars, x.1 ≠ k) :
    H.view A σ env vars pc [σ.world.word a] = H.view A σ (env.setLocal k a) (vars ++ [(k, v)]) pc
      [] := by
  have hlocals : vars.map (fun x => σ.world.word ((env.setLocal k a).locals x.1)) =
      vars.map fun x => σ.world.word (env.locals x.1) :=
    List.map_congr_left fun x hx => by simp [Env.setLocal, hk x hx]
  simp [Host.view, Activation.frame, hlocals]
  simp [Env.setLocal]

theorem Activation.Valid.of_prefix {vars' : List Local} (hA : A.Valid H σ env vars')
    (h : vars <+: vars') : A.Valid H σ env vars where
  store := hA.store
  params := hA.params
  locals x hx := hA.locals x (h.subset hx)
  self := hA.self
  chain := hA.chain

theorem truth_ofBool (b : Bool) : truth (.ofBool b) = (return b : Eval Bool) := by
  cases b <;> rfl

end Places

section Simple

variable {sp : Span}

theorem sim_declare (hR : H.FollowsCalls n R) (v : Variable)
    (init : Expr) : H.FollowsStmt n R (.declare v init sp) := by
  intro A frame after vars start code σ env h hA
  obtain ⟨items, hstmt, rfl⟩ := h.simple rfl
  rw [stmt] at hstmt
  obtain ⟨items, hinit, hrest⟩ := Except.bind_eq_ok.mp hstmt
  cases hrest
  obtain ⟨hstorable, hname⟩ := h.admitted v List.mem_cons_self
  have hbound : (A.setting p).ExprBound (v.seenByInit frame.locals.length vars) init := h.bound
  rw [Variable.seenByInit, if_neg hname] at hbound
  have hfresh : ∀ x ∈ vars, x.1 ≠ frame.locals.length :=
    fun x hx => Nat.ne_of_lt (number_lt h.fits hx)
  cases h.typed with
  | declare hty haccepts =>
    have hvoid := haccepts.ne_void (Ty.ne_void_of_storable hstorable)
    rw [exec]
    refine .bind (sim_expr hR init (h.framed.grow (grows_declare frame)) hty hvoid hbound hinit
      h.carries hA []) ?_
    rintro a σ' w ⟨⟨hgrows, hvalid, rfl⟩, ha⟩
    refine .pure ⟨hgrows, hvalid.setLocal (fun x hx hne => ?_) (fun x hx heq => ?_), ?_⟩
    · exact (List.mem_append.mp hx).resolve_right fun hx => hne (by rw [List.mem_singleton.mp hx])
    · rcases List.mem_append.mp hx with hx | hx
      · exact absurd heq (hfresh x hx)
      · cases List.mem_singleton.mp hx
        exact .accepts haccepts ha
    · rw [length_within]
      exact view_declare hfresh

theorem sim_assignStmt (hR : H.FollowsCalls n R) (r : Ref)
    (value : Expr) : H.FollowsStmt n R (.assign r value sp) := by
  intro A frame after vars start code σ env h hA
  obtain ⟨items, hstmt, rfl⟩ := h.simple rfl
  rw [stmt] at hstmt
  obtain ⟨items, hassign, hrest⟩ := Except.bind_eq_ok.mp hstmt
  cases hrest
  obtain ⟨⟨d, hd⟩, hbound⟩ := h.bound
  cases h.typed with
  | assign htarget hvalue haccepts =>
    obtain ⟨d', hd', hplace, rfl⟩ := htarget
    cases hd.meaning_eq.symm.trans hd'
    have hvoid := haccepts.ne_void (Ty.ne_void_of_storable (storable_of_place H h.framed hd hplace))
    rw [exec, length_within]
    have hoffers : A.Offers p vars value d.ty := ⟨hbound, _, hvalue, haccepts, hvoid⟩
    refine .bind (sim_assign hR h.framed hA hd hplace hoffers hassign h.carries) ?_
    intro env' σ₁ w hleaves
    exact .pure hleaves

theorem sim_assignIndex (hR : H.FollowsCalls n R) (r : Ref) (i value : Expr) :
    H.FollowsStmt n R (.assignIndex r i value sp) := by
  intro A frame after vars start code σ env h hA
  obtain ⟨items, hstmt, rfl⟩ := h.simple rfl
  rw [stmt] at hstmt
  obtain ⟨array, harray, hstmt₁⟩ := Except.bind_eq_ok.mp hstmt
  obtain ⟨index, hindex, hstmt₂⟩ := Except.bind_eq_ok.mp hstmt₁
  obtain ⟨valueCode, hvalue, hrest⟩ := Except.bind_eq_ok.mp hstmt₂
  cases hrest
  obtain ⟨hcarries₁, hupdate⟩ := h.carries.within_append
  obtain ⟨hcarries₂, hvalueCode⟩ := hcarries₁.within_append
  obtain ⟨harrayCode, hindexCode⟩ := hcarries₂.within_append
  simp only [List.length_append, ← Nat.add_assoc] at hvalueCode hupdate
  obtain ⟨⟨d, hd⟩, hindexBound, hvalueBound⟩ := h.bound
  cases h.typed with
  | assignIndex hr hi hv haccepts =>
    obtain ⟨⟨d', hd', harrayTy⟩, hr⟩ := hr
    cases hd.meaning_eq.symm.trans hd'
    have hstorable := storable_of_binds H h.framed hd hr
    rw [harrayTy, Ty.isStorable] at hstorable
    have hvoid := haccepts.ne_void (Ty.ne_void_of_storable hstorable)
    rw [exec]
    refine .bind (sim_ref h.framed hd hr harray harrayCode hA) ?_
    rintro a σ₁ w ⟨⟨hgrows₁, hvalid₁, rfl⟩, ha⟩
    rw [harrayTy] at ha
    refine .bind (sim_expr hR i h.framed hi (by decide) hindexBound hindex hindexCode hvalid₁ _) ?_
    rintro j σ₂ w ⟨⟨hgrows₂, hvalid₂, rfl⟩, k, rfl⟩
    refine .bind (sim_expr hR value h.framed hv hvoid hvalueBound hvalue hvalueCode hvalid₂ _) ?_
    rintro b σ₃ w ⟨⟨hgrows₃, hvalid₃, rfl⟩, hb⟩
    rw [← ha.word_eq hgrows₂, ← (ha.mono hgrows₂).word_eq hgrows₃]
    refine .of_eq (y := do writeElement a k b; return .next env) rfl ?_
    refine .bind (.writeElement hvalid₃ hupdate ((ha.mono hgrows₂).mono hgrows₃)
      (.accepts haccepts hb))
      fun _ σ₄ w hleaves => .pure ?_
    simp only [length_within, List.length_append, ← Nat.add_assoc]
    exact Host.Leaves.of_grows ((hgrows₁.trans hgrows₂).trans hgrows₃) hleaves

theorem sim_callStmt (hR : H.FollowsCalls n R) (r : Ref)
    (args : List Expr) : H.FollowsStmt n R (.call r args sp) := by
  intro A frame after vars start code σ env h hA
  obtain ⟨items, hstmt, rfl⟩ := h.simple rfl
  obtain ⟨⟨owner, m, hd⟩, hargsBound⟩ := h.bound
  rw [stmt, method_eq hd.meaning_eq] at hstmt
  change (Generate.exprs p.classLayouts frame start args >>= _) = .ok _ at hstmt
  obtain ⟨values, hvalues, hstmt₁⟩ := Except.bind_eq_ok.mp hstmt
  obtain ⟨call, hcall, hrest⟩ := Except.bind_eq_ok.mp hstmt₁
  cases hrest
  obtain ⟨hcarries₁, hdropCode⟩ := h.carries.within_append
  obtain ⟨hvaluesCode, hcallCode⟩ := hcarries₁.within_append
  simp only [List.length_append, ← Nat.add_assoc] at hdropCode
  cases h.typed with
  | call hm hfit =>
    cases hd.meaning_eq.symm.trans hm
    simp only [exec, hm]
    have hstorable := H.accepted.params_storable rfl hd.hasMethod
    refine .bind (sim_exprs hR args h.framed hfit hstorable hargsBound hvalues hvaluesCode hA []) ?_
    rintro vs σ₁ w ⟨⟨hgrows₁, hvalid₁, rfl⟩, hty⟩
    refine .bind (sim_invoke hR h.framed hd hcall hcallCode hvalid₁ hty) ?_
    rintro res σ₂ w ⟨⟨hgrows₂, hvalid₂, rfl⟩, hresult⟩
    have hgrows := hgrows₁.trans hgrows₂
    simp only [length_within, List.length_append, ← Nat.add_assoc]
    -- The result is dropped if there is one.
    cases res with
    | none =>
      have hvoid : m.type.ty = .void := hresult
      refine .pure ⟨hgrows, hvalid₂, ?_⟩
      simp [dropResult, hvoid, Stmt.seen]
    | some a =>
      rw [dropResult, if_neg hresult.1] at hdropCode ⊢
      exact .drop [σ₂.world.word a] hvalid₂ hdropCode (.pure ⟨hgrows, hvalid₂, rfl⟩)

theorem sim_retNone : H.FollowsStmt n R (.ret none sp) := by
  intro A frame after vars start code σ env h hA
  obtain ⟨items, hstmt, rfl⟩ := h.simple rfl
  cases hstmt
  have hcarries := h.carries
  rw [h.framed.params] at hcarries
  cases h.typed with
  | retNone hvoid =>
    exact .ret [] hA hcarries (by simp) (.pure ⟨List.prefix_refl _, hA.store, hvoid, rfl⟩)

theorem sim_ret (hR : H.FollowsCalls n R) (value : Expr) :
    H.FollowsStmt n R (.ret (some value) sp) := by
  intro A frame after vars start code σ env h hA
  obtain ⟨items, hstmt, rfl⟩ := h.simple rfl
  rw [stmt] at hstmt
  obtain ⟨items, hvalue, hrest⟩ := Except.bind_eq_ok.mp hstmt
  cases hrest
  obtain ⟨hvalueCode, hret⟩ := h.carries.within_append
  rw [h.framed.params] at hret
  have hbound : (A.setting p).ExprBound vars value := h.bound
  cases h.typed with
  | ret hvoid hty haccepts =>
    rw [exec]
    refine .bind (sim_expr hR value h.framed hty (haccepts.ne_void hvoid) hbound hvalue hvalueCode
      hA []) ?_
    rintro a σ' w ⟨⟨hgrows, hvalid, rfl⟩, ha⟩
    refine .ret [σ'.world.word a] hvalid hret (by simp) (.pure ⟨hgrows, hvalid.store, ?_, rfl⟩)
    exact ⟨hvoid, .accepts haccepts ha⟩

end Simple

theorem sim_test (hR : H.FollowsCalls n R) (hframe : A.Framed frame vars) {cond : Expr}
    (hty : cond.HasTy .boolean) (hbound : (A.setting p).ExprBound vars cond) {test : List Item}
    (htest : Generate.expr p.classLayouts frame start cond = .ok test)
    (hcarries : H.Carries A start (within vars test)) (hA : A.Valid H σ env vars) {α : Type}
    {f : Bool → Eval α} {Q : α → Store → View → Prop}
    (hf : ∀ b σ', σ.world <+: σ'.world → A.Valid H σ' env vars →
      H.Sim (n + 1) (f b) σ'
        (H.view A σ' env vars (start + test.length) ([] ++ [Word.ofBool b])) Q) :
    H.Sim (n + 1) (do f (← truth (← Semantics.expr p.heads env R cond))) σ
      (H.view A σ env vars start []) Q := by
  refine .bind (sim_expr hR cond hframe hty (by decide) hbound htest hcarries hA []) ?_
  rintro a σ' w ⟨⟨hgrows, hvalid, rfl⟩, b, rfl⟩
  rw [truth_ofBool]
  exact hf b σ' hgrows hvalid

section Compound

variable {sp : Span}

theorem sim_block {body : List Stmt}
    (hbody : H.FollowsStmts n R body) : H.FollowsStmt n R (.block body sp) := by
  intro A frame after vars start code σ env h hA
  have hmade := h.made
  rw [scopedStmt] at hmade
  obtain ⟨⟨inner, frame₁, vars'⟩, hinner, hrest⟩ := Except.bind_eq_ok.mp hmade
  cases hrest
  obtain ⟨hinnerCode, hdropCode⟩ := h.carries.append
  cases h.typed with
  | block htyped =>
    have hplaced : H.PlacedAll A frame vars start body inner frame₁ vars' :=
      ⟨h.framed, h.fits, htyped, h.bound, h.admitted, hinner, hinnerCode⟩
    obtain ⟨hfits, -, locals, rfl⟩ := scopedStmts_grows htyped h.fits hinner
    have hcount : frame₁.size - frame.size = locals.length := by
      rw [hfits.size, h.fits.size, List.length_append]
      omega
    rw [hcount] at hdropCode ⊢
    rw [exec, ← bind_pure (execs p.heads R frame.locals.length env body)]
    refine .bind (hbody hplaced hA) ?_
    rintro (env' | r) σ₁ w hflow
    · obtain ⟨hgrows, hvalid, rfl⟩ := hflow
      have hvalid' := hvalid.of_prefix (List.prefix_append vars locals)
      rw [List.length_append, ← Nat.add_assoc, length_within]
      cases locals with
      | nil => exact .pure ⟨hgrows, hvalid', by rw [List.append_nil]; rfl⟩
      | cons x locals => exact .dropLocals hvalid hdropCode (.pure ⟨hgrows, hvalid', rfl⟩)
    · exact .pure hflow

theorem sim_ifThen (hR : H.FollowsCalls n R) (cond : Expr) {t : Stmt} (ht : H.FollowsStmt n R t) :
    H.FollowsStmt n R (.ifThen cond t sp) := by
  intro A frame after vars start code σ env h hA
  have hmade := h.made
  rw [scopedStmt] at hmade
  obtain ⟨test, htest, hmade₁⟩ := Except.bind_eq_ok.mp hmade
  obtain ⟨⟨branch, frame₁⟩, hbranch, hrest⟩ := Except.bind_eq_ok.mp hmade₁
  cases hrest
  obtain ⟨hcarries₁, hbranchCode⟩ := h.carries.append
  obtain ⟨htestCode, hjump⟩ := hcarries₁.within_append
  rw [length_within, List.length_append, List.length_singleton, ← Nat.add_assoc] at hbranchCode
  obtain ⟨hcondBound, hbranchBound⟩ := h.bound
  cases h.typed with
  | ifThen hcond hnoDecl hty =>
    have hplaced : H.Placed A frame vars (start + test.length + 1) t branch after :=
      ⟨h.framed, h.fits, hty, hbranchBound, h.admitted, hbranch, hbranchCode⟩
    have hlen :
        start + (within vars (test ++ [Item.jumpIf 0 (start + test.length + 1 + branch.length)]) ++
          branch).length = start + test.length + 1 + branch.length := by
      simp
      omega
    rw [hlen, exec]
    refine sim_test hR h.framed hcond hcondBound htest htestCode hA fun b σ' hgrows hvalid => ?_
    refine .jumpIf hvalid hjump (Nat.le_succ _) ?_
    cases b with
    | true =>
      refine (ht hplaced hvalid).weaken (Nat.le_refl _) fun flow σ'' w hflow => ?_
      rw [seen_of_not_declaration hnoDecl] at hflow
      exact hflow.of_grows hgrows
    | false => exact .pure ⟨hgrows, hvalid, rfl⟩

theorem sim_ifElse (hR : H.FollowsCalls n R) (cond : Expr) {t e : Stmt} (ht : H.FollowsStmt n R t)
    (he : H.FollowsStmt n R e) : H.FollowsStmt n R (.ifElse cond t e sp) := by
  intro A frame after vars start code σ env h hA
  have hmade := h.made
  rw [scopedStmt] at hmade
  obtain ⟨test, htest, hmade₁⟩ := Except.bind_eq_ok.mp hmade
  obtain ⟨⟨branch, between⟩, hbranch, hmade₂⟩ := Except.bind_eq_ok.mp hmade₁
  obtain ⟨⟨other, frame₁⟩, hother, hrest⟩ := Except.bind_eq_ok.mp hmade₂
  cases hrest
  obtain ⟨hcarries₁, hotherCode⟩ := h.carries.append
  obtain ⟨hcarries₂, hexit⟩ := hcarries₁.append
  obtain ⟨hcarries₃, hbranchCode⟩ := hcarries₂.append
  obtain ⟨htestCode, hjump⟩ := hcarries₃.within_append
  simp only [length_within, List.length_append, List.length_singleton, ← Nat.add_assoc]
    at hbranchCode hexit
  obtain ⟨hcondBound, hbranchBound, hotherBound⟩ := h.bound
  cases h.typed with
  | ifElse hcond hnoDecl₁ hty₁ hnoDecl₂ hty₂ =>
    have hplaced₁ : H.Placed A frame vars (start + test.length + 1) t branch between :=
      ⟨h.framed, h.fits, hty₁, hbranchBound, fun v hv => h.admitted v (List.mem_append_left _ hv),
        hbranch,
        hbranchCode⟩
    obtain ⟨hframed, hfits, hgrows₁⟩ := hplaced₁.grows
    rw [seen_of_not_declaration hnoDecl₁] at hframed hfits
    rw [← hgrows₁.count] at hotherBound
    have hat :
        start + (within vars (test ++ [Item.jumpIf 0 (start + test.length + branch.length + 2)]) ++
          branch ++
        within vars [.jump (start + test.length + branch.length + 2 + other.length)]).length =
        start + test.length + branch.length + 2 := by
      simp
      omega
    rw [hat] at hotherCode
    have hplaced₂ :
        H.Placed A between vars (start + test.length + branch.length + 2) e other after :=
      ⟨hframed, hfits, hty₂, hotherBound, fun v hv => h.admitted v (List.mem_append_right _ hv),
        hother,
        hotherCode⟩
    rw [List.length_append, ← Nat.add_assoc, hat, exec]
    refine sim_test hR h.framed hcond hcondBound htest htestCode hA fun b σ' hgrows hvalid => ?_
    refine .jumpIf hvalid hjump (Nat.le_succ _) ?_
    cases b with
    | true =>
      rw [if_pos rfl, ← bind_pure (exec p.heads R frame.locals.length env t), if_neg (by decide)]
      refine .bind (ht hplaced₁ hvalid) ?_
      rintro (env' | r) σ₁ w hflow
      · rw [seen_of_not_declaration hnoDecl₁] at hflow
        obtain ⟨hgrows', hvalid', rfl⟩ := hflow
        rw [Nat.add_right_comm _ 1] at hexit
        rw [Nat.add_right_comm _ 1]
        exact .jump hvalid' hexit (Nat.le_succ _) (.pure ⟨hgrows.trans hgrows', hvalid', rfl⟩)
      · exact .pure (Host.Flows.of_grows hgrows hflow)
    | false =>
      rw [if_neg nofun, ← hgrows₁.count]
      refine (he hplaced₂ hvalid).weaken (Nat.le_refl _) fun flow σ'' w hflow => ?_
      rw [seen_of_not_declaration hnoDecl₂] at hflow
      exact hflow.of_grows hgrows

theorem sim_loop (hL : H.FollowsLoops n R) (cond : Expr)
    (body : Stmt) : H.FollowsStmt n R (.loop cond body sp) := by
  intro A frame after vars start code σ env h hA
  have hmade := h.made
  rw [scopedStmt] at hmade
  obtain ⟨⟨round, frame₁⟩, hround, hmade₁⟩ := Except.bind_eq_ok.mp hmade
  obtain ⟨test, htest, hrest⟩ := Except.bind_eq_ok.mp hmade₁
  cases hrest
  obtain ⟨hcarries₁, htestCode⟩ := h.carries.append
  obtain ⟨hjump, hroundCode⟩ := hcarries₁.append
  simp only [length_within, List.length_append, List.length_singleton, ← Nat.add_assoc]
    at hroundCode htestCode
  obtain ⟨hcondBound, hroundBound⟩ := h.bound
  cases h.typed with
  | loop hcond hnoDecl hty =>
    have hplaced : H.Placed A frame vars (start + 1) body round after :=
      ⟨h.framed, h.fits, hty, hroundBound, h.admitted, hround, hroundCode⟩
    have hloop :=
      hL A frame after vars (start + 1) cond body round test σ env hplaced hnoDecl hcond hcondBound
      htest htestCode hA
    rw [exec]
    refine .jump hA hjump (Nat.le_refl _) (hloop.weaken (Nat.le_refl _) fun flow σ' w hflow => ?_)
    change H.Flows A σ vars _ flow σ' w
    simpa [Nat.add_assoc] using hflow

theorem sim_nil : H.FollowsStmts n R [] := by
  intro A frame after vars vars' start code σ env h hA
  cases h.made
  exact .pure ⟨List.prefix_refl _, hA, rfl⟩

theorem sim_cons {s : Stmt} {ss : List Stmt} (hs : H.FollowsStmt n R s)
    (hss : H.FollowsStmts n R ss) : H.FollowsStmts n R (s :: ss) := by
  intro A frame after vars vars' start code σ env h hA
  have hmade := h.made
  rw [scopedStmts] at hmade
  obtain ⟨⟨first, between⟩, hfirst, hmade₁⟩ := Except.bind_eq_ok.mp hmade
  obtain ⟨⟨rest, frame₁, vars₁⟩, hrest, hdone⟩ := Except.bind_eq_ok.mp hmade₁
  cases hdone
  obtain ⟨hfirstCode, hrestCode⟩ := h.carries.append
  obtain ⟨hfirstBound, hrestBound⟩ := h.bound
  cases h.typed with
  | cons hfirstTy hrestTy =>
    have hplaced : H.Placed A frame vars start s first between :=
      ⟨h.framed, h.fits, hfirstTy, hfirstBound,
        fun v hv => h.admitted v (List.mem_append_left _ hv), hfirst,
        hfirstCode⟩
    obtain ⟨hframed, hfits, hgrows⟩ := hplaced.grows
    rw [← hgrows.count] at hrestBound
    have hplacedRest :
        H.PlacedAll A between (s.seen frame.locals.length vars) (start + first.length) ss rest
        after vars' :=
      ⟨hframed, hfits, hrestTy, hrestBound, fun v hv => h.admitted v (List.mem_append_right _ hv),
        hrest, hrestCode⟩
    rw [execs]
    refine .bind (hs hplaced hA) ?_
    rintro (env' | r) σ₁ w hflow
    · obtain ⟨hgrows₁, hvalid, rfl⟩ := hflow
      rw [← hgrows.count]
      refine (hss hplacedRest hvalid).weaken (Nat.le_refl _) fun flow σ₂ w hflow => ?_
      rw [List.length_append, ← Nat.add_assoc]
      exact hflow.of_grows hgrows₁
    · exact .pure hflow

end Compound

mutual

theorem sim_exec (hR : H.FollowsCalls n R)
    (hL : H.FollowsLoops n R) : ∀ s : Stmt, H.FollowsStmt n R s
  | .block body _ => sim_block (sim_execs hR hL body)
  | .declare v init _ => sim_declare hR v init
  | .assign r value _ => sim_assignStmt hR r value
  | .assignIndex r i value _ => sim_assignIndex hR r i value
  | .call r args _ => sim_callStmt hR r args
  | .ret none _ => sim_retNone
  | .ret (some value) _ => sim_ret hR value
  | .ifThen cond t _ => sim_ifThen hR cond (sim_exec hR hL t)
  | .ifElse cond t e _ => sim_ifElse hR cond (sim_exec hR hL t) (sim_exec hR hL e)
  | .loop cond body _ => sim_loop hL cond body

theorem sim_execs (hR : H.FollowsCalls n R)
    (hL : H.FollowsLoops n R) : ∀ ss : List Stmt, H.FollowsStmts n R ss
  | [] => sim_nil
  | s :: ss => sim_cons (sim_exec hR hL s) (sim_execs hR hL ss)

end

/-- One round of a loop, and then the loop again. -/
theorem sim_round (hR : H.FollowsCalls n R) (hL : H.FollowsLoops n R) {after : Frame} {top : Nat}
    {cond : Expr} {body : Stmt} {code : Scoped} {test : List Item}
    (h : H.Placed A frame vars top body code after) (hnoDecl : body.isDeclaration = false)
    (hcond : cond.HasTy .boolean) (hbound : (A.setting p).ExprBound vars cond)
    (htest : Generate.expr p.classLayouts after (top + code.length) cond = .ok test)
    (hcarries : H.Carries A (top + code.length) (within vars (test ++ [Item.jumpIf 1 top])))
    (hA : A.Valid H σ env vars) :
    H.Sim (n + 1) (round p.heads R frame.locals.length env cond body) σ
      (H.view A σ env vars (top + code.length) [])
      (H.Flows A σ vars (top + code.length + (test.length + 1))) := by
  obtain ⟨htestCode, hjump⟩ := hcarries.within_append
  obtain ⟨hframed, -, -⟩ := h.grows
  rw [seen_of_not_declaration hnoDecl] at hframed
  rw [Semantics.round]
  refine sim_test hR hframed hcond hbound htest htestCode hA fun b σ₁ hgrows hvalid => ?_
  refine .jumpIf hvalid hjump (Nat.le_refl _) ?_
  cases b with
  | false => exact .pure ⟨hgrows, hvalid, rfl⟩
  | true =>
    -- The jump has used a step, so that the next round may use less fuel.
    rw [if_pos rfl, if_pos (by decide)]
    refine .bind ((sim_exec hR hL body h hvalid).weaken (Nat.le_succ n) fun _ _ _ hflow => hflow) ?_
    rintro (env' | r) σ₂ w hflow
    · rw [seen_of_not_declaration hnoDecl] at hflow
      obtain ⟨hgrows', hvalid', rfl⟩ := hflow
      refine (hL A frame after vars top cond body code test σ₂ env' h hnoDecl hcond hbound htest
        hcarries
        hvalid').weaken (Nat.le_refl n) fun flow σ₃ w hflow => ?_
      exact hflow.of_grows (hgrows.trans hgrows')
    · exact .pure (Host.Flows.of_grows hgrows hflow)

/-- Statements that end with a return never come to what follows them. -/
theorem execs_returns {classes : List ClassHead} {k : Nat} {ss : List Stmt} {env' : Env}
    {σ' : Store} (h : execs classes R k env ss σ = .ok (.next env') σ') (value : Option Expr)
    (sp : Span) : ss.getLast? ≠ some (.ret value sp) := by
  induction ss generalizing k env σ with
  | nil => nofun
  | cons s ss ih =>
    intro hlast
    rw [execs] at h
    obtain ⟨flow, σ₁, hs, h⟩ := EStateM.bind_eq_ok.mp h
    cases flow with
    | returned r => cases h
    | next env₁ =>
      cases ss with
      | nil =>
        cases hlast
        cases value with
        | none => cases hs
        | some value =>
          rw [exec] at hs
          obtain ⟨a, σ₂, -, hs⟩ := EStateM.bind_eq_ok.mp hs
          cases hs
      | cons t ss =>
        rw [List.getLast?_cons_cons] at hlast
        exact ih h hlast

/-- The body of a method, and the return at its end. -/
theorem sim_method (hR : H.FollowsCalls n R) (hL : H.FollowsLoops n R) {key : MethodKey}
    {m : Method} {a : Nat} {self : Val} {args : List Val} (hm : p.method? key = some m)
    (ha : H.address key = some a) (hmethod : A.method = m.toSignature)
    (howner : A.owner = key.owner) (hA : A.Valid H σ (entryEnv self args) []) :
    H.Sim (n + 1) (Semantics.call p.heads R m self args) σ (H.view A σ (entryEnv self args) [] a [])
      (H.Returns A σ m.type.ty) := by
  obtain ⟨hmem, -⟩ := Program.method?_eq_some hm
  obtain ⟨c, hc, hname, hmc, -⟩ := @Program.hasMethod_of_mem p (A.setting p) rfl _ hmem
  obtain ⟨a', ha', code, after, vars, hmade, hcode⟩ := H.methods key m hm
  cases ha.symm.trans ha'
  have hparams : A.method.params = m.params := by rw [hmethod]
  have hcarries : H.Carries A a (code ++ within vars (closing m)) := by
    refine ⟨?_, key, m, a, code, after, vars, hm, hmethod, howner, hmade, hcode, Nat.le_refl a, ?_⟩
    · rw [hparams]
      exact hcode
    · simp [within, Nat.add_assoc]
  obtain ⟨hbody, hclosing⟩ := hcarries.append
  have htyped := H.accepted.methods c hc m hmc
  have hadmitted := H.accepted.admitted c hc
  have hsetting : A.setting p = p.setting c.name m := by
    rw [Activation.setting, hmethod, howner, Program.setting, hname]
  have hplaced : H.PlacedAll A (.entry m.params.length) [] a m.body code after vars := by
    refine ⟨⟨by rw [hparams]; rfl, by simp, ?_, by simp⟩, fits_entry _, ?_, ?_,
      hadmitted.locals m hmc, hmade, hbody⟩
    · rw [hparams]
      exact hadmitted.params m hmc
    · rw [hmethod]
      exact htyped.body
    · rw [hsetting]
      exact H.accepted.bound.bodies c hc m hmc
  rw [Semantics.call]
  refine .bind (sim_execs hR hL m.body hplaced hA).result ?_
  rintro (env' | r) σ' w ⟨hflow, hresult⟩
  · -- The body has come to its end, so that it does not end with a return and the type is void.
    have hlast := execs_returns hresult
    obtain ⟨hgrows, hvalid, rfl⟩ := hflow
    have hvoid : m.type.ty = .void := by
      by_contra hne
      obtain ⟨value, sp, hret⟩ := htyped.returns hne
      exact hlast value sp hret
    have hclosed : closing m = [.ret 0 A.method.params.length] := by
      rw [closing, hparams]
      split
      · rename_i hret
        exact absurd hret (hlast _ _)
      · rfl
    rw [hclosed] at hclosing
    exact .ret [] hvalid hclosing (by simp) (.pure ⟨hgrows, hvalid.store, hvoid, rfl⟩)
  · have hflow : H.Returns A σ A.method.type.ty r σ' w := hflow
    rw [hmethod] at hflow
    exact .pure hflow

/-- With any fuel, calls and loops are followed. -/
theorem follows (H : Host p) (n : Nat) :
    H.FollowsCalls n (p.reentry n) ∧ H.FollowsLoops n (p.reentry n) := by
  induction n with
  | zero =>
    refine ⟨?_, ?_⟩
    · intro key m a A σ self args _ _ _ _ _
      exact .outOfFuel rfl
    · intro A frame after vars top cond body code test σ env _ _ _ _ _ _ _
      exact .outOfFuel rfl
  | succ n ih =>
    obtain ⟨hR, hL⟩ := ih
    refine ⟨?_, ?_⟩
    · intro key m a A σ self args hm ha hmethod howner hA
      have hcall :
          (p.reentry (n + 1)).call key self args = Semantics.call p.heads (p.reentry n) m self
          args := by
        change (known (p.method? key) >>= _) = _
        rw [hm]
        rfl
      rw [hcall]
      exact sim_method hR hL hm ha hmethod howner hA
    · intro A frame after vars top cond body code test σ env h hnoDecl hcond hbound htest hcarries
        hA
      exact sim_round hR hL h hnoDecl hcond hbound htest hcarries hA

end MiniJava.Simulation
