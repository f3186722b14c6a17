import MiniJava.Proofs.Simulation.Blocks
import MiniJava.Proofs.Simulation.Calls
/-!
The code of references and expressions pushes the values that the evaluator gives them.
-/
namespace MiniJava.Simulation

open Generate Machine Semantics

variable {p : Program} {H : Host p} {A : Activation}

/-- Where the phrases of an activation stand. -/
def Activation.setting (p : Program) (A : Activation) : Setting := ⟨p.heads, A.owner, A.method⟩

/-- The frame for which code is made has the variables of an activation, and none has type void. -/
structure Activation.Framed (A : Activation) (frame : Frame) (vars : List Local) : Prop where
  params : frame.params = A.method.params.length
  places : ∀ (j : Nat) x, vars[j]? = some x → frame.locals[x.1]? = some (Frame.linkSize + j)
  storableParams : ∀ v ∈ A.method.params, v.type.ty.isStorable = true
  storableLocals : ∀ x ∈ vars, x.2.type.ty.isStorable = true

section

variable {σ : Store} {env : Env} {vars : List Local} {frame : Frame} {r : Ref} {d : Meaning}
  {n start : Nat}
  {code : List Item} {ops : List Word}

theorem storable_of_binds (H : Host p) (hframe : A.Framed frame vars)
    (h : (A.setting p).Binds vars r d) (hv : r.isValue = true) : d.ty.isStorable = true := by
  cases h with
  | this | cls => rfl
  | method | memberMethod => cases hv
  | field hf _ => exact H.accepted.field_storable rfl hf
  | param hi => exact hframe.storableParams _ (List.mem_of_getElem? hi)
  | localVar hx => exact hframe.storableLocals _ hx
  | length => rfl
  | memberField _ _ _ hf _ => exact H.accepted.field_storable rfl hf

theorem readFieldOf_eq {classes : List ClassHead} {object : Val} {owner name : String} {i : Nat}
    (h : fieldSlot? classes owner name = some i) :
    readFieldOf classes object owner name = Semantics.readField object i := by
  rw [readFieldOf, h]
  rfl

theorem readStaticOf_eq {classes : List ClassHead} {owner name : String} {i : Nat} {v : Val}
    (h : staticSlot? classes owner name = some i) (hv : σ.statics[i]? = some v) :
    readStaticOf classes owner name σ = .ok v σ := by
  rw [readStaticOf, h]
  change readStatic i σ = _
  simp [readStatic, hv]

theorem sim_static (hA : A.Valid H σ env vars) {owner : String} {f : Field}
    (hf : (A.setting p).HasField owner f) (hs : f.isStatic = true) {i : Nat}
    (hplace : p.classLayouts.field? owner f.name = some ⟨i, true⟩)
    (hcarries : H.Carries A start (within vars [.loadField ⟨i, true⟩])) :
    H.Sim n (readStaticOf p.heads owner f.name) σ (H.view A σ env vars start ops)
      (H.Pushes A σ env vars (start + 1) ops f.type.ty) := by
  obtain ⟨i', hplace', hslot, hget⟩ := H.accepted.bound.staticField rfl hf hs
  cases hplace.symm.trans hplace'
  obtain ⟨v, hv, hty⟩ := forall₂_getElem? hA.store.statics hget
  refine .loadStatic hA hcarries hv (.of_ok (readStaticOf_eq hslot hv) rfl ?_)
  exact ⟨⟨List.prefix_refl _, hA, rfl⟩, hty⟩

theorem sim_lengthOf {x : Eval Val} {v : View} {pc : Nat} {t : Ty}
    (hx : H.Sim n x σ v (H.Pushes A σ env vars pc ops (.array t)))
    (hcarries : H.Carries A pc (within vars [.prim .arraylen])) :
    H.Sim n (x >>= arrayLength) σ v (H.Pushes A σ env vars (pc + 1) ops .int) := by
  refine .bind hx ?_
  rintro a σ' v ⟨⟨hgrows, hvalid, rfl⟩, hty⟩
  refine (Host.Sim.arrayLength hvalid hcarries hty).weaken (Nat.le_refl n) ?_
  rintro b σ'' v ⟨⟨hgrows', hvalid', rfl⟩, hty'⟩
  exact ⟨⟨hgrows.trans hgrows', hvalid', rfl⟩, hty'⟩

theorem sim_fieldOf {x : Eval Val} {v : View} {pc i : Nat} {c name : String} {t : Ty}
    (hx : H.Sim n x σ v (H.Pushes A σ env vars pc ops (.cls c)))
    (hcarries : H.Carries A pc (within vars [.literal (Word.ofNat i), .prim .fieldref]))
    (hslot : fieldSlot? p.heads c name = some i) (hcell : cellTy? p.heads (.object c) i = some t) :
    H.Sim n (x >>= fun object => readFieldOf p.heads object c name) σ v
      (H.Pushes A σ env vars (pc + 2) ops t) := by
  refine .bind hx ?_
  rintro a σ' v ⟨⟨hgrows, hvalid, rfl⟩, hty⟩
  rw [readFieldOf_eq hslot]
  obtain ⟨hliteral, hprim⟩ := hcarries.within_cons
  refine .literal hvalid hliteral ?_
  refine (Host.Sim.readField hvalid hprim hty hcell).weaken (Nat.le_refl n) ?_
  rintro b σ'' v ⟨⟨hgrows', hvalid', rfl⟩, hty'⟩
  exact ⟨⟨hgrows.trans hgrows', hvalid', rfl⟩, hty'⟩

theorem sim_ref (hframe : A.Framed frame vars) (h : (A.setting p).Binds vars r d)
    (hv : r.isValue = true) (hcode : Generate.ref p.classLayouts frame r = .ok code)
    (hcarries : H.Carries A start (within vars code)) (hA : A.Valid H σ env vars) :
    H.Sim n (Semantics.ref p.heads env r) σ (H.view A σ env vars start ops)
      (H.Pushes A σ env vars (start + code.length) ops d.ty) := by
  induction h generalizing code with
  | this hs =>
    cases hcode
    obtain ⟨hobject, -, hself⟩ := hA.self hs
    exact .this hA hcarries (.pure ⟨⟨List.prefix_refl _, hA, by rw [hobject]; rfl⟩, hself⟩)
  | cls | method | memberMethod => cases hv
  | @field id f hf hs =>
    cases hstatic : f.isStatic with
    | true =>
      obtain ⟨i, hplace, -⟩ := H.accepted.bound.staticField rfl hf hstatic
      simp only [Generate.ref, hplace, placed] at hcode
      cases hcode
      simp only [Semantics.ref, hstatic, if_true]
      exact sim_static hA hf hstatic hplace hcarries
    | false =>
      obtain ⟨i, hplace, hslot, hcell⟩ := H.accepted.bound.instanceField rfl hf hstatic
      simp only [Generate.ref, hplace, placed] at hcode
      cases hcode
      simp only [Semantics.ref, hstatic, Bool.false_eq_true, if_false, readFieldOf_eq hslot]
      exact .readOwn hA (hs hstatic) hcarries hcell
  | @param id i v hi =>
    cases hcode
    obtain ⟨a, ha, hty⟩ := forall₂_getElem? hA.params hi
    simp only [Semantics.ref, ha]
    exact .loadParam hA hframe.params hcarries ha (.pure ⟨⟨List.prefix_refl _, hA, rfl⟩, hty⟩)
  | @localVar id i v hx =>
    obtain ⟨j, hj⟩ := List.mem_iff_getElem?.mp hx
    simp only [Generate.ref, hframe.places j _ hj, placed] at hcode
    cases hcode
    exact .loadLocal hA hcarries hj (.pure ⟨⟨List.prefix_refl _, hA, rfl⟩, hA.locals _ hx⟩)
  | @length q dq id t hq hk ht ih =>
    rw [Generate.ref] at hcode
    obtain ⟨code, hcode₁, hcode₂⟩ := Except.bind_eq_ok.mp hcode
    cases hcode₂
    obtain ⟨hcarries₁, hcarries₂⟩ := hcarries.within_append
    have hq := ih (isValue_of_array hq hk ht) hcode₁ hcarries₁
    rw [ht] at hq
    rw [List.length_append, ← Nat.add_assoc]
    exact sim_lengthOf hq hcarries₂
  | @memberField q dq id c f hq hk ht hf hs ih =>
    cases hstatic : f.isStatic with
    | true =>
      obtain ⟨i, hplace, -⟩ := H.accepted.bound.staticField rfl hf hstatic
      rw [ref_memberField hplace] at hcode
      cases hcode
      simp only [Semantics.ref, hstatic, if_true]
      exact sim_static hA hf hstatic hplace hcarries
    | false =>
      obtain ⟨i, hplace, hslot, hcell⟩ := H.accepted.bound.instanceField rfl hf hstatic
      rw [ref_memberField hplace] at hcode
      simp only [Semantics.ref, hstatic, Bool.false_eq_true, if_false]
      cases hthis : isThis q with
      | true =>
        rw [hthis] at hcode
        cases hcode
        cases hq with
        | this hm =>
          cases ht
          refine .of_eq (y := Semantics.readField env.self i) ?_ (.readOwn hA hm hcarries hcell)
          rw [← readFieldOf_eq hslot]
          rfl
        | _ => cases hthis
      | false =>
        rw [hthis] at hcode
        obtain ⟨object, hobject, hmap⟩ := Except.bind_eq_ok.mp hcode
        cases hmap
        obtain ⟨hcarries₁, hcarries₂⟩ := hcarries.within_append
        have hq := ih (hs hstatic) hobject hcarries₁
        rw [ht] at hq
        rw [List.length_append, ← Nat.add_assoc]
        exact sim_fieldOf hq hcarries₂ hslot hcell

/-- The machine after the values of arguments have been pushed. -/
structure Host.PushesAll (H : Host p) (A : Activation) (σ : Store) (env : Env) (vars : List Local)
    (pc : Nat) (ops : List Word) (params : List Variable) (vs : List Val) (σ' : Store)
    (v : View) : Prop where
  leaves : H.Leaves A σ env vars pc (ops ++ vs.map σ'.world.word) σ' v
  has : List.Forall₂ (fun x a => σ'.world.Has x.type.ty a) params vs

theorem map_word_args {W W' : World} {params : List Variable} {args : List Val}
    (hgrows : W <+: W') (h : List.Forall₂ (fun v a => W.Has v.type.ty a) params args) :
    args.map W'.word = args.map W.word :=
  map_word_eq hgrows fun a ha => by
    obtain ⟨v, hv⟩ := exists_of_forall₂ h a ha
    exact ⟨_, hv⟩

theorem Host.Answers.of_grows {σ₁ σ' : Store} {pc : Nat} {t : Ty} {res : Option Val} {v : View}
    (hgrows : σ.world <+: σ₁.world) (h : H.Answers A σ₁ env vars pc ops t res σ' v) :
    H.Answers A σ env vars pc ops t res σ' v :=
  ⟨⟨hgrows.trans h.leaves.grows, h.leaves.valid, h.leaves.view⟩, h.result⟩

theorem sim_receiver (hframe : A.Framed frame vars) {owner : String} {m : Signature}
    (h : (A.setting p).Binds vars r (.method owner m)) (hstatic : m.isStatic = false)
    (hcode : Generate.receiver p.classLayouts frame r = .ok code)
    (hcarries : H.Carries A start (within vars code)) (hA : A.Valid H σ env vars) :
    H.Sim n (Semantics.receiver p.heads env r) σ (H.view A σ env vars start ops)
      (H.Pushes A σ env vars (start + code.length) ops (.cls owner)) := by
  cases h with
  | method _ hs =>
    cases hcode
    obtain ⟨hobject, -, hself⟩ := hA.self (hs hstatic)
    exact .this hA hcarries (.pure ⟨⟨List.prefix_refl _, hA, by rw [hobject]; rfl⟩, hself⟩)
  | memberMethod hq _ ht _ hs =>
    rw [← ht]
    exact sim_ref hframe hq (hs hstatic) hcode hcarries hA

theorem sim_invoke {R : Reentry} (hR : H.FollowsCalls n R) (hframe : A.Framed frame vars)
    {owner : String} {m : Signature} {args : List Val}
    (h : (A.setting p).Binds vars r (.method owner m))
    (hcode : Generate.invoke p.classLayouts frame r owner m = .ok code)
    (hcarries : H.Carries A start (within vars code)) (hA : A.Valid H σ env vars)
    (hargs : List.Forall₂ (fun v a => σ.world.Has v.type.ty a) m.params args) :
    H.Sim (n + 1) (Semantics.invoke p.heads env R r owner m args) σ
      (H.view A σ env vars start (ops ++ args.map σ.world.word))
      (H.Answers A σ env vars (start + code.length) ops m.type.ty) := by
  have hmethod := h.hasMethod
  rw [Generate.invoke] at hcode
  rw [Semantics.invoke]
  by_cases hprint : isPrintln owner m = true
  · rw [if_pos hprint] at hcode ⊢
    cases hcode
    have hm := H.accepted.bound.println_eq rfl hmethod hprint
    rw [hm] at hargs ⊢
    obtain ⟨a, rest, ⟨w, rfl⟩, hrest, rfl⟩ := List.forall₂_cons_left_iff.mp hargs
    cases List.forall₂_nil_left_iff.mp hrest
    refine .of_eq (y := do Semantics.println w; return none) rfl (.bind (.println hA hcarries) ?_)
    rintro ⟨⟩ σ' v ⟨hgrows, hvalid, rfl⟩
    exact .pure ⟨⟨hgrows, hvalid, by simp⟩, rfl⟩
  · rw [if_neg hprint] at hcode ⊢
    obtain ⟨method, hfound, rfl⟩ :=
      H.accepted.bound.exists_method? rfl hmethod (Bool.not_eq_true _ ▸ hprint)
    cases hstatic : method.isStatic with
    | true =>
      rw [hstatic, if_pos rfl] at hcode
      cases hcode
      exact .call hR hA hcarries hfound hstatic hargs
    | false =>
      rw [hstatic, if_neg nofun] at hcode
      rw [if_neg nofun]
      obtain ⟨receiver, hreceiver, hrest⟩ := Except.bind_eq_ok.mp hcode
      cases hrest
      obtain ⟨hcarries₁, hcarries₂⟩ := hcarries.within_append
      refine .bind (sim_receiver hframe h hstatic hreceiver hcarries₁ hA) ?_
      rintro object σ' v ⟨⟨hgrows, hvalid, rfl⟩, hty⟩
      rw [← map_word_args hgrows hargs]
      refine (Host.Sim.callOn hR hvalid hcarries₂ hfound hty
        (hargs.imp fun _ _ ha => ha.mono hgrows)).weaken (Nat.le_refl _) ?_
      intro res σ'' v hanswer
      rw [List.length_append, ← Nat.add_assoc]
      exact hanswer.of_grows hgrows

theorem Host.Pushes.of_grows {σ₁ σ' : Store} {pc : Nat} {t : Ty} {a : Val} {v : View}
    (hgrows : σ.world <+: σ₁.world) (h : H.Pushes A σ₁ env vars pc ops t a σ' v) :
    H.Pushes A σ env vars pc ops t a σ' v :=
  ⟨⟨hgrows.trans h.leaves.grows, h.leaves.valid, h.leaves.view⟩, h.has⟩

theorem ofBool_eq_iff {a b : Bool} : Word.ofBool a = Word.ofBool b ↔ a = b := by
  cases a <;> cases b <;> decide

/-- The rest of a short circuit, whose left operand is `b`: it is decided if that is `decided`. -/
theorem sim_shortCircuit {decided b : Bool} {right : List Item} {x : Eval Val} {exit : Nat}
    (hexit : exit = start + right.length + 2) (hA : A.Valid H σ env vars)
    (hcarries : H.Carries A start
      (within vars ([Item.jumpIf (Word.ofBool decided) exit] ++ right ++
        [Item.jump (exit + 1), .literal (Word.ofBool decided)])))
    (hx : H.Carries A (start + 1) (within vars right) →
      H.Sim n x σ (H.view A σ env vars (start + 1) ops)
        (H.Pushes A σ env vars (start + 1 + right.length) ops .boolean)) :
    H.Sim n (if b = decided then return .ofBool decided else x) σ
      (H.view A σ env vars start (ops ++ [Word.ofBool b]))
      (H.Pushes A σ env vars (exit + 1) ops .boolean) := by
  obtain ⟨hcarries₁, hexits⟩ := hcarries.within_append
  obtain ⟨htest, hright⟩ := hcarries₁.within_append
  obtain ⟨hjump, hliteral⟩ := hexits.within_cons
  refine .jumpIf hA htest (Nat.le_succ n) ?_
  simp only [ofBool_eq_iff]
  split
  · -- The value is known, and the code that pushes it stands at the exit.
    have hat : start + ([Item.jumpIf (Word.ofBool decided) exit] ++ right).length + 1 = exit := by
      simp
      omega
    rw [hat] at hliteral
    exact .literal hA hliteral (.pure ⟨⟨List.prefix_refl _, hA, rfl⟩, decided, rfl⟩)
  · rw [← bind_pure x]
    refine .bind (hx hright) ?_
    rintro a σ' v ⟨⟨hgrows, hvalid, rfl⟩, hty⟩
    have hat : start + ([Item.jumpIf (Word.ofBool decided) exit] ++ right).length =
        start + 1 + right.length := by
      simp
      omega
    rw [hat] at hjump
    exact .jump hvalid hjump (Nat.le_succ n) (.pure ⟨⟨hgrows, hvalid, rfl⟩, hty⟩)

variable {R : Reentry}

theorem expr_prim {op : BinaryOp} {q : Prim} (hq : strategy op = .prim q)
    (classes : List ClassHead) (s : Span) (l r : Expr) :
    Semantics.expr classes env R (.binary op s l r) = (do
      let a ← Semantics.expr classes env R l
      let b ← Semantics.expr classes env R r
      Semantics.binary op a b) := by
  cases op with
  | and | or => cases hq
  | _ => rw [Semantics.expr]

/-- An operator with a short circuit is decided by one value of its left operand. -/
theorem expr_shortCircuit {op : BinaryOp} {w : Word} (hw : strategy op = .shortCircuit w)
    (env : Env) (R : Reentry) :
    ∃ decided : Bool, w = Word.ofBool decided ∧ op ∈ [BinaryOp.and, BinaryOp.or] ∧
      ∀ (classes : List ClassHead) (s : Span) (l r : Expr),
      Semantics.expr classes env R (.binary op s l r) = (do
        let a ← Semantics.expr classes env R l
        let b ← truth a
        if b = decided then return .ofBool decided else Semantics.expr classes env R r) := by
  cases op with
  | and =>
    cases hw
    refine ⟨false, rfl, by simp, fun classes s l r => ?_⟩
    rw [Semantics.expr]
    refine bind_congr fun a => bind_congr fun b => ?_
    cases b <;> rfl
  | or =>
    cases hw
    refine ⟨true, rfl, by simp, fun classes s l r => ?_⟩
    rw [Semantics.expr]
  | _ => cases hw

/-- An expression is followed wherever its code stands. -/
def Host.FollowsExpr (H : Host p) (n : Nat) (R : Reentry) (e : Expr) : Prop :=
  ∀ {A : Activation} {frame : Frame} {vars : List Local} {start : Nat} {code : List Item}
    {σ : Store} {env : Env} {t : Ty},
    A.Framed frame vars → e.HasTy t → t ≠ .void → (A.setting p).ExprBound vars e →
    Generate.expr p.classLayouts frame start e = .ok code → H.Carries A start (within vars code) →
    A.Valid H σ env vars → ∀ ops,
    H.Sim (n + 1) (Semantics.expr p.heads env R e) σ (H.view A σ env vars start ops)
      (H.Pushes A σ env vars (start + code.length) ops t)

/-- Arguments are followed wherever their code stands. -/
def Host.FollowsExprs (H : Host p) (n : Nat) (R : Reentry) (es : List Expr) : Prop :=
  ∀ {A : Activation} {frame : Frame} {vars : List Local} {start : Nat} {code : List Item}
    {σ : Store} {env : Env} {params : List Variable},
    A.Framed frame vars → Expr.ArgsFit es params → (∀ v ∈ params, v.type.ty.isStorable = true) →
    (A.setting p).ExprsBound vars es → Generate.exprs p.classLayouts frame start es = .ok code →
    H.Carries A start (within vars code) → A.Valid H σ env vars → ∀ ops,
    H.Sim (n + 1) (Semantics.exprs p.heads env R es) σ (H.view A σ env vars start ops)
      (H.PushesAll A σ env vars (start + code.length) ops params)

section Forms

variable {s : Span}

theorem sim_unary (op : UnaryOp) {e : Expr}
    (he : H.FollowsExpr n R e) : H.FollowsExpr n R (.unary op s e) := by
  intro A frame vars start code σ env t hframe ht hvoid hbound hcode hcarries hA ops
  cases ht with
  | unary hop hty =>
    rw [Generate.expr] at hcode
    obtain ⟨operand, hoperand, hrest⟩ := Except.bind_eq_ok.mp hcode
    cases hrest
    obtain ⟨hcarries₁, hcarries₂⟩ := hcarries.within_append
    have hbound : (A.setting p).ExprBound vars e := hbound
    rw [Semantics.expr]
    refine .bind (he hframe hty hvoid hbound hoperand hcarries₁ hA ops) ?_
    rintro a σ' v ⟨⟨hgrows, hvalid, rfl⟩, ha⟩
    refine (Host.Sim.unary hvalid hcarries₂ hop ha).weaken (Nat.le_refl _) fun b σ'' v h => ?_
    rw [List.length_append, ← Nat.add_assoc]
    exact h.of_grows hgrows

theorem sim_prim {op : BinaryOp} {q : Prim} (hstrategy : strategy op = .prim q) {l r : Expr}
    (hl : H.FollowsExpr n R l)
    (hr : H.FollowsExpr n R r) : H.FollowsExpr n R (.binary op s l r) := by
  intro A frame vars start code σ env t hframe ht hvoid hbound hcode hcarries hA ops
  cases ht with
  | binary hop htl htr =>
    have hbound : (A.setting p).ExprBound vars l ∧ (A.setting p).ExprBound vars r := hbound
    rw [Generate.expr] at hcode
    obtain ⟨left, hleft, hcode₁⟩ := Except.bind_eq_ok.mp hcode
    rw [hstrategy] at hcode₁
    obtain ⟨right, hright, hrest⟩ := Except.bind_eq_ok.mp hcode₁
    cases hrest
    obtain ⟨hcarries₁, hprim⟩ := hcarries.within_append
    obtain ⟨hleftCode, hrightCode⟩ := hcarries₁.within_append
    obtain ⟨hleftVoid, hrightVoid⟩ := hop.operands_ne_void
    rw [expr_prim hstrategy]
    refine .bind (hl hframe htl hleftVoid hbound.1 hleft hleftCode hA ops) ?_
    rintro a σ₁ v ⟨⟨hgrows₁, hvalid₁, rfl⟩, hty₁⟩
    refine .bind (hr hframe htr hrightVoid hbound.2 hright hrightCode hvalid₁ _) ?_
    rintro b σ₂ v ⟨⟨hgrows₂, hvalid₂, rfl⟩, hty₂⟩
    rw [List.length_append, ← Nat.add_assoc] at hprim
    rw [← hty₁.word_eq hgrows₂]
    refine (Host.Sim.binary hvalid₂ hprim hstrategy hop (hty₁.mono hgrows₂) hty₂).weaken
      (Nat.le_refl _)
      fun c σ₃ v h => ?_
    simp only [List.length_append, ← Nat.add_assoc]
    exact h.of_grows (hgrows₁.trans hgrows₂)

theorem sim_logic {op : BinaryOp} {w : Word} (hstrategy : strategy op = .shortCircuit w)
    {l r : Expr} (hl : H.FollowsExpr n R l)
    (hr : H.FollowsExpr n R r) : H.FollowsExpr n R (.binary op s l r) := by
  intro A frame vars start code σ env t hframe ht hvoid hbound hcode hcarries hA ops
  cases ht with
  | binary hop htl htr =>
    have hbound : (A.setting p).ExprBound vars l ∧ (A.setting p).ExprBound vars r := hbound
    rw [Generate.expr] at hcode
    obtain ⟨left, hleft, hcode₁⟩ := Except.bind_eq_ok.mp hcode
    rw [hstrategy] at hcode₁
    obtain ⟨right, hright, hrest⟩ := Except.bind_eq_ok.mp hcode₁
    cases hrest
    obtain ⟨decided, rfl, hlogic, heval⟩ := expr_shortCircuit hstrategy env R
    obtain ⟨rfl, rfl, rfl⟩ := hop.eq_boolean hlogic
    rw [List.append_assoc, List.append_assoc] at hcarries
    obtain ⟨hleftCode, hcarries₁⟩ := hcarries.within_append
    rw [heval]
    refine .bind (hl hframe htl nofun hbound.1 hleft hleftCode hA ops) ?_
    rintro a σ₁ v ⟨⟨hgrows, hvalid, rfl⟩, b, rfl⟩
    refine .of_eq (y := if b = decided then return .ofBool decided else Semantics.expr p.heads env R
      r)
      (by cases b <;> rfl) ?_
    refine (sim_shortCircuit (x := Semantics.expr p.heads env R r) rfl hvalid hcarries₁
      fun hrightCode =>
      hr hframe htr nofun hbound.2 hright hrightCode hvalid ops).weaken (Nat.le_refl _)
      fun c σ₂ v h => ?_
    have hend : start + left.length + right.length + 2 + 1 =
        start +
          (left ++ [Item.jumpIf (Word.ofBool decided) (start + left.length + right.length + 2)] ++
            right ++
          [Item.jump (start + left.length + right.length + 2 + 1),
            Item.literal (Word.ofBool decided)]).length := by
      simp
      omega
    rw [← hend]
    exact h.of_grows hgrows

theorem sim_binary (op : BinaryOp) {l r : Expr} (hl : H.FollowsExpr n R l)
    (hr : H.FollowsExpr n R r) : H.FollowsExpr n R (.binary op s l r) := by
  cases hstrategy : strategy op with
  | prim q => exact sim_prim hstrategy hl hr
  | shortCircuit w => exact sim_logic hstrategy hl hr

theorem sim_refExpr (r : Ref) : H.FollowsExpr n R (.ref r) := by
  intro A frame vars start code σ env t hframe ht hvoid hbound hcode hcarries hA ops
  cases ht with
  | ref hr =>
    obtain ⟨d, hd⟩ := hbound
    obtain ⟨⟨d', hd', rfl⟩, hvalue⟩ := hr
    cases hd.meaning_eq.symm.trans hd'
    rw [Semantics.expr]
    exact sim_ref hframe hd hvalue hcode hcarries hA

theorem sim_index (r : Ref) {i : Expr}
    (hi : H.FollowsExpr n R i) : H.FollowsExpr n R (.index r i s) := by
  intro A frame vars start code σ env t hframe ht hvoid hbound hcode hcarries hA ops
  cases ht with
  | index hr hint =>
    obtain ⟨⟨d, hd⟩, hindexBound⟩ := hbound
    obtain ⟨⟨d', hd', harrayTy⟩, hvalue⟩ := hr
    cases hd.meaning_eq.symm.trans hd'
    rw [Generate.expr] at hcode
    obtain ⟨array, harray, hcode₁⟩ := Except.bind_eq_ok.mp hcode
    obtain ⟨index, hindex, hrest⟩ := Except.bind_eq_ok.mp hcode₁
    cases hrest
    obtain ⟨hcarries₁, hprim⟩ := hcarries.within_append
    obtain ⟨harrayCode, hindexCode⟩ := hcarries₁.within_append
    rw [Semantics.expr]
    refine .bind (sim_ref hframe hd hvalue harray harrayCode hA) ?_
    rintro a σ₁ v ⟨⟨hgrows₁, hvalid₁, rfl⟩, hty₁⟩
    rw [harrayTy] at hty₁
    refine .bind (hi hframe hint nofun hindexBound hindex hindexCode hvalid₁ _) ?_
    rintro b σ₂ v ⟨⟨hgrows₂, hvalid₂, rfl⟩, w, rfl⟩
    rw [List.length_append, ← Nat.add_assoc] at hprim
    rw [← hty₁.word_eq hgrows₂]
    refine (Host.Sim.readElement hvalid₂ hprim (hty₁.mono hgrows₂)).weaken (Nat.le_refl _)
      fun c σ₃ v h => ?_
    simp only [List.length_append, ← Nat.add_assoc]
    exact h.of_grows (hgrows₁.trans hgrows₂)

theorem sim_callExpr (hR : H.FollowsCalls n R) (r : Ref) {args : List Expr}
    (hargs : H.FollowsExprs n R args) : H.FollowsExpr n R (.call r args s) := by
  intro A frame vars start code σ env t hframe ht hvoid hbound hcode hcarries hA ops
  cases ht with
  | call hm hfit =>
    obtain ⟨⟨_, _, hd⟩, hargsBound⟩ := hbound
    cases hd.meaning_eq.symm.trans hm
    rw [Generate.expr, method_eq hm] at hcode
    change (Generate.exprs p.classLayouts frame start args >>= _) = .ok code at hcode
    obtain ⟨values, hvalues, hcode₁⟩ := Except.bind_eq_ok.mp hcode
    obtain ⟨call, hcall, hrest⟩ := Except.bind_eq_ok.mp hcode₁
    cases hrest
    obtain ⟨hvaluesCode, hcallCode⟩ := hcarries.within_append
    simp only [Semantics.expr, hm]
    have hstorable := H.accepted.params_storable rfl hd.hasMethod
    refine .bind (hargs hframe hfit hstorable hargsBound hvalues hvaluesCode hA ops) ?_
    rintro as σ₁ v ⟨⟨hgrows₁, hvalid₁, rfl⟩, hty₁⟩
    refine .bind (sim_invoke hR hframe hd hcall hcallCode hvalid₁ hty₁) ?_
    rintro (_ | a) σ₂ v ⟨⟨hgrows₂, hvalid₂, rfl⟩, hresult⟩
    · exact absurd hresult hvoid
    · refine .pure ⟨⟨hgrows₁.trans hgrows₂, hvalid₂, ?_⟩, hresult.2⟩
      simp [Nat.add_assoc]

theorem sim_literal (l : Literal) : H.FollowsExpr n R (.literal l s) := by
  intro A frame vars start code σ env t hframe ht hvoid hbound hcode hcarries hA ops
  cases ht with
  | literal hl =>
    cases hcode
    rw [Semantics.expr]
    refine .literal hA hcarries (.pure ⟨⟨List.prefix_refl _, hA, rfl⟩, ?_⟩)
    cases hl with
    | int digits => exact ⟨_, rfl⟩
    | bool b => exact ⟨b, by cases b <;> rfl⟩
    | null => rfl

theorem sim_newObject (c : Ident) : H.FollowsExpr n R (.newObject c s) := by
  intro A frame vars start code σ env t hframe ht hvoid hbound hcode hcarries hA ops
  cases ht with
  | newObject =>
    obtain ⟨layout, hlayout, hcount⟩ := H.accepted.bound.classSize rfl hbound
    simp only [Generate.expr, hlayout, placed] at hcode
    cases hcode
    obtain ⟨hclass, hcarries₁⟩ := hcarries.within_cons
    obtain ⟨hsize, hcreate⟩ := hcarries₁.within_cons
    rw [Semantics.expr, hcount]
    exact .literal hA hclass (.literal hA hsize (.createObject hA hcreate hcount))

theorem sim_newArray (elem : TypeName) {size : Expr} (hsize : H.FollowsExpr n R size) :
    H.FollowsExpr n R (.newArray elem size s) := by
  intro A frame vars start code σ env t hframe ht hvoid hbound hcode hcarries hA ops
  cases ht with
  | newArray hint =>
    rw [Generate.expr] at hcode
    obtain ⟨sizeCode, hsizeCode, hrest⟩ := Except.bind_eq_ok.mp hcode
    cases hrest
    obtain ⟨hcarries₁, hcarries₂⟩ := hcarries.within_append
    have hbound : (A.setting p).ExprBound vars size := hbound
    rw [Semantics.expr]
    refine .bind (hsize hframe hint nofun hbound hsizeCode hcarries₁ hA ops) ?_
    rintro a σ' v ⟨⟨hgrows, hvalid, rfl⟩, w, rfl⟩
    refine (Host.Sim.createArray hvalid hcarries₂).weaken (Nat.le_refl _) fun b σ'' v h => ?_
    rw [List.length_append, ← Nat.add_assoc]
    exact h.of_grows hgrows

theorem sim_noArgs : H.FollowsExprs n R [] := by
  intro A frame vars start code σ env params hframe hfit hstorable hbound hcode hcarries hA ops
  cases hfit
  cases hcode
  rw [Semantics.exprs]
  exact .pure ⟨⟨List.prefix_refl _, hA, by simp⟩, .nil⟩

theorem sim_arg {e : Expr} {es : List Expr} (he : H.FollowsExpr n R e)
    (hes : H.FollowsExprs n R es) : H.FollowsExprs n R (e :: es) := by
  intro A frame vars start code σ env params hframe hfit hstorable hbound hcode hcarries hA ops
  cases hfit with
  | cons hty haccepts hfit =>
    obtain ⟨hv, hvs⟩ := List.forall_mem_cons.mp hstorable
    rw [Generate.exprs] at hcode
    obtain ⟨first, hfirst, hcode₁⟩ := Except.bind_eq_ok.mp hcode
    obtain ⟨rest, hrest, hdone⟩ := Except.bind_eq_ok.mp hcode₁
    cases hdone
    obtain ⟨hcarries₁, hcarries₂⟩ := hcarries.within_append
    have hvoid := haccepts.ne_void (Ty.ne_void_of_storable hv)
    rw [Semantics.exprs]
    refine .bind (he hframe hty hvoid hbound.1 hfirst hcarries₁ hA ops) ?_
    rintro a σ₁ v₁ ⟨⟨hgrows₁, hvalid₁, rfl⟩, hty₁⟩
    refine .bind (hes hframe hfit hvs hbound.2 hrest hcarries₂ hvalid₁ _) ?_
    rintro as σ₂ v₂ ⟨⟨hgrows₂, hvalid₂, rfl⟩, hty₂⟩
    rw [← hty₁.word_eq hgrows₂]
    refine .pure ⟨⟨hgrows₁.trans hgrows₂, hvalid₂, ?_⟩,
      .cons (.accepts haccepts (hty₁.mono hgrows₂)) hty₂⟩
    simp [Nat.add_assoc]

end Forms

mutual

theorem sim_expr (hR : H.FollowsCalls n R) : ∀ e : Expr, H.FollowsExpr n R e
  | .unary op _ e => sim_unary op (sim_expr hR e)
  | .binary op _ l r => sim_binary op (sim_expr hR l) (sim_expr hR r)
  | .ref r => sim_refExpr r
  | .index r i _ => sim_index r (sim_expr hR i)
  | .call r args _ => sim_callExpr hR r (sim_exprs hR args)
  | .literal l _ => sim_literal l
  | .newObject c _ => sim_newObject c
  | .newArray elem size _ => sim_newArray elem (sim_expr hR size)

theorem sim_exprs (hR : H.FollowsCalls n R) : ∀ es : List Expr, H.FollowsExprs n R es
  | [] => sim_noArgs
  | e :: es => sim_arg (sim_expr hR e) (sim_exprs hR es)

end

end

end MiniJava.Simulation
