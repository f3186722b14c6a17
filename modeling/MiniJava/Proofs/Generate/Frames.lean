import MiniJava.Proofs.Generate.Parts
import MiniJava.Proofs.Simulation.Program
/-!
Scopes and frames agree. Wherever code is made for a phrase, the frame has a word for each local
that the phrase can see, and no two of them share one: scopes end where the frame shrinks.
-/
namespace MiniJava

variable {p : Program} {E : Setting}

namespace Generate

/-- The frame at a spot has the parameters of the method below the local base, and the locals in
scope one after the other behind the link. -/
structure Spot.Houses (E : Setting) (P : Spot) : Prop where
  params : P.frame.params = E.method.params.length
  places : ∀ (j : Nat) x, P.vars[j]? = some x → P.frame.locals[x.1]? = some (Frame.linkSize + j)
  size : Frame.linkSize + P.vars.length ≤ P.frame.size
  height : Frame.linkSize + P.vars.length ≤ P.height
  storable : ∀ x ∈ P.vars, x.2.type.ty.isStorable = true

/-- Between statements the locals in scope are all there is above the link. -/
structure Spot.Rests (P : Spot) : Prop where
  fits : Fits P.frame P.vars
  height : P.height = P.frame.size

/-- A phrase of a method, bound and typed where it stands. -/
def Phrase.IsSound (E : Setting) (P : Spot) : Phrase → Prop
  | .ref r => r.isValue = true ∧ E.RefBound P.vars r
  | .expr e => E.ExprBound P.vars e ∧ ∃ t, t ≠ .void ∧ e.HasTy t
  | .exprs es => E.ExprsBound P.vars es ∧ ∃ vs, (∀ v ∈ vs, v.type.ty ≠ .void) ∧ Expr.ArgsFit es vs
  | .call r args => E.ExprsBound P.vars args ∧
      ∃ owner m, E.Binds P.vars r (.method owner m) ∧ Expr.ArgsFit args m.params
  | .stmt s => P.Rests ∧ E.StmtBound P.frame.locals.length P.vars s ∧ s.WellTyped E.method ∧
      ∀ v ∈ s.locals, v.Admitted
  | .stmts ss =>
    P.Rests ∧ E.StmtsBound P.frame.locals.length P.vars ss ∧ Stmt.AllWellTyped E.method ss ∧
      ∀ v ∈ Stmt.localsOf ss, v.Admitted

/-- A part of a method whose spot and phrase fit together. -/
structure Part.IsSound (E : Setting) (x : Part) : Prop where
  houses : x.spot.Houses E
  phrase : x.phrase.IsSound E x.spot

theorem Spot.Houses.on {P : Spot} (h : P.Houses E)
    (length words : Nat) : (P.on length words).Houses E where
  params := h.params
  places := h.places
  size := h.size
  height := Nat.le_trans h.height (Nat.le_add_right _ _)
  storable := h.storable

theorem stmt_fits {classes : ClassLayouts} {m : Signature} {start : Nat} {frame after : Frame}
    {vars : List Local} {s : Stmt} {code : List Item} (ht : s.WellTyped m) (hf : Fits frame vars)
    (h : stmt classes start frame s = .ok (code, after)) :
    Fits after (s.seen frame.locals.length vars) ∧ Grows frame after s.locals.length := by
  obtain ⟨marked, hmarked, -⟩ := exists_scopedStmt vars h
  exact scopedStmt_grows ht hf hmarked

theorem Spot.Houses.of_fits {P Q : Spot} {count : Nat} (h : P.Houses E)
    (hg : Grows P.frame Q.frame count) (hf : Fits Q.frame Q.vars)
    (hheight : Q.height = Q.frame.size)
    (hstorable : ∀ x ∈ Q.vars, x.2.type.ty.isStorable = true) : Q.Houses E where
  params := hg.params.trans h.params
  places := hf.places
  size := Nat.le_of_eq hf.size.symm
  height := Nat.le_of_eq (hheight.trans hf.size).symm
  storable := hstorable

theorem storable_seen {s : Stmt} {k : Nat} {vars : List Local}
    (h : ∀ x ∈ vars, x.2.type.ty.isStorable = true) (hs : ∀ v ∈ s.locals, v.Admitted) :
    ∀ x ∈ s.seen k vars, x.2.type.ty.isStorable = true := by
  cases s with
  | declare v init sp =>
    intro x hx
    rcases List.mem_append.mp hx with hx | hx
    · exact h x hx
    · cases List.mem_singleton.mp hx
      exact (hs v List.mem_cons_self).storable
  | _ => exact h

/-- The initializer of a variable is made for a frame that has the variable, but cannot see it. -/
theorem Spot.Houses.init {P : Spot} (h : P.Houses E) {v : Variable} (hv : v.Admitted) :
    (⟨P.start, P.frame.declare, v.seenByInit P.frame.locals.length P.vars, P.height⟩ :
      Spot).Houses E := by
  have hseen : v.seenByInit P.frame.locals.length P.vars = P.vars := if_neg hv.named
  rw [hseen]
  refine ⟨h.params, fun j x hx => ?_, Nat.le_succ_of_le h.size, h.height, h.storable⟩
  have hold := h.places j x hx
  simp only [Frame.declare]
  rw [List.getElem?_append_left (List.getElem?_eq_some_iff.mp hold).1, hold]

end Generate

open Generate

/-- The setting of a method of a program that passes the checks. -/
structure Setting.IsIn (E : Setting) (p : Program) : Prop where
  accepted : p.Accepted
  classes : E.classes = p.heads
  declared : E.HasMethod E.owner E.method

namespace Setting.IsIn

variable (hE : E.IsIn p)

include hE

theorem laid : Laid E.classes p.classLayouts := hE.classes ▸ hE.accepted.bound.laid

theorem storable_of_binds {P : Spot} {r : Ref} {d : Meaning} (hP : P.Houses E)
    (h : E.Binds P.vars r d) (hv : r.isValue = true) : d.ty.isStorable = true := by
  cases h with
  | this | cls => rfl
  | method | memberMethod => cases hv
  | field hf _ => exact hE.accepted.field_storable hE.classes hf
  | param hi => exact hE.accepted.params_storable hE.classes hE.declared _ (List.mem_of_getElem? hi)
  | localVar hx => exact hP.storable _ hx
  | length => rfl
  | memberField _ _ _ hf _ => exact hE.accepted.field_storable hE.classes hf

theorem value_of_place {q : Ref} {owner : String} {f : Field} {place : FieldPlace}
    (hf : E.HasField owner f) (hplace : p.classLayouts.field? owner f.name = some place)
    (hown : (place.isStatic || isThis q) = false)
    (hs : f.isStatic = false → q.isValue = true) : q.isValue = true := by
  obtain ⟨i, hi⟩ := hE.laid.hasField hf
  cases hplace.symm.trans hi
  exact hs (Bool.or_eq_false_iff.mp hown).1

end Setting.IsIn

namespace Generate

section Step

variable {P : Spot} {ps : List Piece}

section

variable {classes : ClassLayouts}

theorem sound_expr {e : Expr} (hP : P.Houses E) (he : (Phrase.expr e).IsSound E P)
    (hps : Pattern classes P (.expr e) ps) : EachPart (fun y _ => y.IsSound E) ps := by
  obtain ⟨hbound, t, hvoid, ht⟩ := he
  cases hps with
  | unary =>
    cases ht with
    | unary _ ht =>
      simp only [eachPart_part, eachPart_item, eachPart_nil, and_true]
      exact ⟨hP, hbound, t, hvoid, ht⟩
  | binary left right hop =>
    cases ht with
    | binary ho hl hr =>
      obtain ⟨hvl, hvr⟩ := ho.operands_ne_void
      simp only [eachPart_part, eachPart_item, eachPart_nil, and_true]
      exact ⟨⟨hP, hbound.1, _, hvl, hl⟩, hP.on _ _, hbound.2, _, hvr, hr⟩
  | shortCircuit left right hop =>
    cases ht with
    | binary ho hl hr =>
      obtain ⟨hvl, hvr⟩ := ho.operands_ne_void
      simp only [eachPart_part, eachPart_item, eachPart_nil, and_true]
      exact ⟨⟨hP, hbound.1, _, hvl, hl⟩, hP.on _ _, hbound.2, _, hvr, hr⟩
  | value =>
    cases ht with
    | ref hr =>
      simp only [eachPart_part, eachPart_nil, and_true]
      exact ⟨hP, hr.2, hbound⟩
  | index array index =>
    cases ht with
    | index hr hi =>
      simp only [eachPart_part, eachPart_item, eachPart_nil, and_true]
      exact ⟨⟨hP, hr.2, hbound.1⟩, hP.on _ _, hbound.2, .int, Ty.noConfusion, hi⟩
  | callValue =>
    cases ht with
    | call hm hfit =>
      obtain ⟨⟨owner, callee, hr⟩, hargs⟩ := hbound
      cases hr.meaning_eq.symm.trans hm
      simp only [eachPart_part, eachPart_nil, and_true]
      exact ⟨hP, hargs, _, _, hr, hfit⟩
  | literal | newObject => simp
  | newArray =>
    cases ht with
    | newArray hs =>
      simp only [eachPart_part, eachPart_item, eachPart_nil, and_true]
      exact ⟨hP, hbound, .int, Ty.noConfusion, hs⟩

theorem sound_exprs {es : List Expr} (hP : P.Houses E) (hes : (Phrase.exprs es).IsSound E P)
    (hps : Pattern classes P (.exprs es) ps) : EachPart (fun y _ => y.IsSound E) ps := by
  obtain ⟨hbound, vs, hvoid, hfit⟩ := hes
  cases hps with
  | noExprs => simp
  | consExprs first rest =>
    cases hfit with
    | cons he haccepts hfit =>
      obtain ⟨hv, hvs⟩ := List.forall_mem_cons.mp hvoid
      simp only [eachPart_part, eachPart_nil, and_true]
      exact ⟨⟨hP, hbound.1, _, haccepts.ne_void hv, he⟩, hP.on _ _, hbound.2, _, hvs, hfit⟩

end

variable (hE : E.IsIn p)

include hE

theorem sound_ref {r : Ref} (hP : P.Houses E) (hr : (Phrase.ref r).IsSound E P)
    (hps : Pattern p.classLayouts P (.ref r) ps) : EachPart (fun y _ => y.IsSound E) ps := by
  obtain ⟨hv, d, hd⟩ := hr
  cases hps with
  | this | field | param | localVar | ownField => simp
  | length =>
    cases hd with
    | length hq hk ht =>
      simp only [eachPart_part, eachPart_item, eachPart_nil, and_true]
      exact ⟨hP, isValue_of_array hq hk ht, _, hq⟩
  | memberField hplace hown =>
    cases hd with
    | memberField hq _ _ hf hs =>
      simp only [eachPart_part, eachPart_item, eachPart_nil, and_true]
      exact ⟨hP, hE.value_of_place hf hplace hown hs, _, hq⟩

theorem sound_call {r : Ref} {args : List Expr} (hP : P.Houses E)
    (hr : (Phrase.call r args).IsSound E P)
    (hps : Pattern p.classLayouts P (.call r args) ps) : EachPart (fun y _ => y.IsSound E) ps := by
  obtain ⟨hargs, owner, m, hd, hfit⟩ := hr
  have hvalues : (⟨P, .exprs args⟩ : Part).IsSound E := by
    have hstorable := hE.accepted.params_storable hE.classes hd.hasMethod
    exact ⟨hP, hargs, m.params, fun v hv => Ty.ne_void_of_storable (hstorable v hv), hfit⟩
  cases hps with
  | print | callStatic | callOwn => simpa using hvalues
  | callMember values code hprint hstatic =>
    cases hd with
    | memberMethod hq _ _ _ hs =>
      simp only [eachPart_part, eachPart_item, eachPart_nil, and_true]
      exact ⟨hvalues, hP.on _ _, hs hstatic, _, hq⟩

theorem sound_assign {r : Ref} {value : Expr} {s : Span} (hP : P.Houses E)
    (hr : E.RefBound P.vars r)
    (hvalue : ∀ n words, (⟨P.on n words, .expr value⟩ : Part).IsSound E)
    (hps : Pattern p.classLayouts P (.stmt (.assign r value s)) ps) :
    EachPart (fun y _ => y.IsSound E) ps := by
  have hfirst : (⟨P, .expr value⟩ : Part).IsSound E := hvalue 0 0
  cases hps with
  | assignField | assignParam | assignLocal | assignOwnField => simpa using hfirst
  | assignMember object code hplace hown =>
    obtain ⟨d, hd⟩ := hr
    cases hd with
    | memberField hq _ _ hf hs =>
      simp only [eachPart_part, eachPart_item, eachPart_nil, and_true]
      exact ⟨⟨hP, hE.value_of_place hf hplace hown hs, _, hq⟩, hvalue _ _⟩

theorem sound_stmt {s : Stmt} (hP : P.Houses E) (hs : (Phrase.stmt s).IsSound E P)
    (hps : Pattern p.classLayouts P (.stmt s) ps) : EachPart (fun y _ => y.IsSound E) ps := by
  obtain ⟨hrests, hbound, ht, hadmitted⟩ := hs
  -- A branch leaves the frame as it was, so what follows stands at a spot like the one before it.
  have hbranch {t : Stmt} {start : Nat} {code : List Item} {between : Frame}
      (ht : t.WellTyped E.method) (hd : t.isDeclaration = false)
      (hcode : stmt p.classLayouts start P.frame t = .ok (code, between)) (a : Nat) :
      (⟨a, between, P.vars, P.height⟩ : Spot).Houses E ∧
        (⟨a, between, P.vars, P.height⟩ : Spot).Rests ∧
        between.locals.length = P.frame.locals.length + t.locals.length := by
    obtain ⟨hfits, hgrows⟩ := stmt_fits ht hrests.fits hcode
    rw [seen_of_not_declaration hd] at hfits
    have hheight : P.height = between.size := by rw [hrests.height, hrests.fits.size, hfits.size]
    exact ⟨hP.of_fits hgrows hfits hheight hP.storable, ⟨hfits, hheight⟩, hgrows.count⟩
  cases ht with
  | block ht =>
    cases hps with
    | block hbody =>
      simp only [eachPart_part, eachPart_items, and_true]
      exact ⟨hP, hrests, hbound, ht, hadmitted⟩
  | @declare v init sp t ht haccepts =>
    cases hps with
    | declare =>
      have hv : v.Admitted := hadmitted v List.mem_cons_self
      simp only [eachPart_part, eachPart_nil, and_true]
      exact ⟨hP.init hv, hbound, t, haccepts.ne_void (Ty.ne_void_of_storable hv.storable), ht⟩
  | @assign r value sp location t hr hvalue haccepts =>
    obtain ⟨d, hd⟩ := hbound.1
    obtain ⟨d', hd', hplace, rfl⟩ := hr
    cases hd.meaning_eq.symm.trans hd'
    have hv : r.isValue = true := by
      cases hd with
      | this | cls | method | length | memberMethod => cases hplace
      | field | param | localVar | memberField => rfl
    have hvoid := haccepts.ne_void (Ty.ne_void_of_storable (hE.storable_of_binds hP hd hv))
    exact sound_assign hE hP ⟨d, hd⟩ (fun n words => ⟨hP.on n words, hbound.2, t, hvoid, hvalue⟩)
      hps
  | @assignIndex r i value sp elem t hr hi hvalue haccepts =>
    cases hps with
    | assignIndex array index code =>
      obtain ⟨⟨d, hd⟩, hindex, hbound⟩ := hbound
      obtain ⟨d', hd', hty⟩ := hr.1
      cases hd.meaning_eq.symm.trans hd'
      have hstorable := hE.storable_of_binds hP hd hr.2
      rw [hty, Ty.isStorable] at hstorable
      have hvoid := haccepts.ne_void (Ty.ne_void_of_storable hstorable)
      simp only [eachPart_part, eachPart_item, eachPart_nil, and_true]
      exact ⟨⟨hP, hr.2, d, hd⟩, ⟨hP.on _ _, hindex, .int, Ty.noConfusion, hi⟩, hP.on _ _, hbound, t,
        hvoid, hvalue⟩
  | call hm' hfit =>
    cases hps with
    | call hm =>
      obtain ⟨⟨owner, callee, hr⟩, hargs⟩ := hbound
      cases hr.meaning_eq.symm.trans hm'
      simp only [eachPart_part, eachPart_items, and_true]
      exact ⟨hP, hargs, _, _, hr, hfit⟩
  | retNone _ =>
    cases hps with
    | retNone => simp
  | ret hvoid hvalue haccepts =>
    cases hps with
    | ret =>
      simp only [eachPart_part, eachPart_item, eachPart_nil, and_true]
      exact ⟨hP, hbound, _, haccepts.ne_void hvoid, hvalue⟩
  | ifThen hc hd ht =>
    cases hps with
    | ifThen test code =>
      simp only [eachPart_part, eachPart_item, eachPart_nil, and_true]
      exact ⟨⟨hP, hbound.1, .boolean, Ty.noConfusion, hc⟩, hP.on _ _, ⟨hrests.fits, hrests.height⟩,
        hbound.2, ht, hadmitted⟩
  | ifElse hc hd ht he hte =>
    cases hps with
    | ifElse test other hcode =>
      obtain ⟨hhouses, hrests', hcount⟩ := hbranch ht hd hcode _
      rw [Stmt.locals, List.forall_mem_append] at hadmitted
      simp only [eachPart_part, eachPart_item, eachPart_nil, and_true]
      refine ⟨⟨hP, hbound.1, .boolean, Ty.noConfusion, hc⟩,
        ⟨hP.on _ _, ⟨hrests.fits, hrests.height⟩, hbound.2.1, ht, hadmitted.1⟩,
        hhouses, hrests', ?_, hte, hadmitted.2⟩
      rw [hcount]
      exact hbound.2.2
  | loop hc hd ht =>
    cases hps with
    | loop test hcode =>
      simp only [eachPart_part, eachPart_item, eachPart_nil, and_true]
      exact ⟨⟨hP.on _ _, ⟨hrests.fits, hrests.height⟩, hbound.2, ht, hadmitted⟩,
        (hbranch ht hd hcode _).1, hbound.1,
        .boolean, Ty.noConfusion, hc⟩

omit hE in
theorem sound_stmts {classes : ClassLayouts} {ss : List Stmt} (hP : P.Houses E)
    (hss : (Phrase.stmts ss).IsSound E P)
    (hps : Pattern classes P (.stmts ss) ps) : EachPart (fun y _ => y.IsSound E) ps := by
  obtain ⟨hrests, hbound, ht, hadmitted⟩ := hss
  cases ht with
  | nil =>
    cases hps with
    | noStmts => simp
  | @cons s ss ht hts =>
    cases hps with
    | consStmts rest hfirst =>
      obtain ⟨hfits, hgrows⟩ := stmt_fits ht hrests.fits hfirst
      rw [Stmt.localsOf, List.forall_mem_append] at hadmitted
      simp only [eachPart_part, eachPart_nil, and_true]
      refine ⟨⟨hP, hrests, hbound.1, ht, hadmitted.1⟩,
        hP.of_fits hgrows hfits rfl (storable_seen hP.storable hadmitted.1), ⟨hfits, rfl⟩, ?_, hts,
        hadmitted.2⟩
      rw [hgrows.count]
      exact hbound.2

/-- The parts of a part that is bound and typed are so, too. -/
theorem Part.IsSound.pieces {x : Part} (hx : x.IsSound E) (hps : x.Splits p.classLayouts ps) :
    EachPart (fun y _ => y.IsSound E) ps := by
  obtain ⟨P, X⟩ := x
  cases X with
  | ref r => exact sound_ref hE hx.houses hx.phrase hps.pattern
  | expr e => exact sound_expr hx.houses hx.phrase hps.pattern
  | exprs es => exact sound_exprs hx.houses hx.phrase hps.pattern
  | call r args => exact sound_call hE hx.houses hx.phrase hps.pattern
  | stmt s => exact sound_stmt hE hx.houses hx.phrase hps.pattern
  | stmts ss => exact sound_stmts hx.houses hx.phrase hps.pattern

theorem Part.Reaches.isSound {x y : Part} (hxy : x.Reaches p.classLayouts y)
    (hx : x.IsSound E) : y.IsSound E := by
  induction hxy with
  | self => exact hx
  | piece _ hps hz ih => exact ih.pieces hE hps _ _ hz

end Step

/-- The declaration that a bare name denotes where it is read or assigned. -/
def Phrase.bareName? : Phrase → Option Meaning
  | .ref (.name _ d) => d
  | .stmt (.assign (.name _ d) _ _) => d
  | _ => none

/-- At a part of the method `m` each local in scope has a word of its own behind the link, below the
size of the frame, the parameters lie below the local base, and bare names denote parameters or
locals in scope. -/
structure Part.Separates (m : Signature) (x : Part) : Prop where
  params : ∀ i < m.params.length, x.spot.frame.paramOffset i = (i : Int) - m.params.length
  locals : ∀ v ∈ x.spot.vars, ∃ o, x.spot.frame.locals[v.1]? = some o ∧ Frame.linkSize ≤ o ∧
    o < x.spot.frame.size
  apart : ∀ v ∈ x.spot.vars, ∀ w ∈ x.spot.vars,
    x.spot.frame.locals[v.1]? = x.spot.frame.locals[w.1]? → v = w
  bareParam : ∀ i v, x.phrase.bareName? = some (.param i v) → m.params[i]? = some v
  bareLocal : ∀ i v, x.phrase.bareName? = some (.localVar i v) → (i, v) ∈ x.spot.vars

theorem Spot.Houses.exists_place {P : Spot} (h : P.Houses E) {v : Local} (hv : v ∈ P.vars) :
    ∃ j : Nat, P.vars[j]? = some v ∧ P.frame.locals[v.1]? = some (Frame.linkSize + j) := by
  obtain ⟨j, hj⟩ := List.mem_iff_getElem?.mp hv
  exact ⟨j, hj, h.places j v hj⟩

theorem Part.IsSound.bareName {x : Part} (h : x.IsSound E) {d : Meaning}
    (hd : x.phrase.bareName? = some d) : ∃ id, E.Binds x.spot.vars (.name id (some d)) d := by
  obtain ⟨P, X⟩ := x
  obtain ⟨-, hX⟩ := h
  unfold Phrase.bareName? at hd
  split at hd
  · rename_i id d' heq
    cases heq
    cases hd
    obtain ⟨-, d', hd'⟩ := hX
    cases hd'.meaning_eq
    exact ⟨id, hd'⟩
  · rename_i id d' value s heq
    cases heq
    cases hd
    obtain ⟨-, ⟨⟨d', hd'⟩, -⟩, -, -⟩ := hX
    cases hd'.meaning_eq
    exact ⟨id, hd'⟩
  · cases hd

theorem Part.IsSound.separates {x : Part} (h : x.IsSound E) : x.Separates E.method where
  params i _ := by rw [Frame.paramOffset, h.houses.params]
  locals v hv := by
    obtain ⟨j, hj, hplace⟩ := h.houses.exists_place hv
    have hlt := (List.getElem?_eq_some_iff.mp hj).1
    have hsize := h.houses.size
    exact ⟨_, hplace, Nat.le_add_right _ _, by omega⟩
  apart v hv w hw heq := by
    obtain ⟨j, hj, hplace⟩ := h.houses.exists_place hv
    obtain ⟨k, hk, hplace'⟩ := h.houses.exists_place hw
    rw [hplace, hplace', Option.some.injEq, Nat.add_left_cancel_iff] at heq
    subst heq
    exact Option.some.inj (hj.symm.trans hk)
  bareParam i v hd := by
    obtain ⟨id, hbinds⟩ := h.bareName hd
    cases hbinds with
    | param hi => exact hi
  bareLocal i v hd := by
    obtain ⟨id, hbinds⟩ := h.bareName hd
    cases hbinds with
    | localVar hx => exact hx

end Generate

/-- All locals ever declared lie behind the link, within the largest size of the frame. -/
structure Frame.Bounded (f : Frame) : Prop where
  locals : ∀ o ∈ f.locals, Frame.linkSize ≤ o ∧ o < f.maxSize
  size : Frame.linkSize ≤ f.size ∧ f.size ≤ f.maxSize

namespace Frame.Bounded

variable {f g : Frame}

theorem entry (params : Nat) : (Frame.entry params).Bounded := ⟨nofun, Nat.le_refl _, Nat.le_refl _⟩

theorem declare (h : f.Bounded) : f.declare.Bounded := by
  obtain ⟨hlocals, hlink, hsize⟩ := h
  refine ⟨fun o ho => ?_, Nat.le_succ_of_le hlink, Nat.le_max_right _ _⟩
  simp only [Frame.declare, List.mem_append, List.mem_singleton] at ho ⊢
  rcases ho with ho | rfl
  · have := hlocals o ho
    omega
  · omega

theorem shrink (h : f.Bounded) (hg : g.Bounded)
    (hle : f.maxSize ≤ g.maxSize) : (g.shrink f.size).Bounded :=
  ⟨hg.locals, h.size.1, Nat.le_trans h.size.2 hle⟩

end Frame.Bounded

namespace Generate

variable {classes : ClassLayouts}

theorem stmt_after {start : Nat} {frame after : Frame} {s : Stmt} {code : List Item}
    (hs : isSimple s = true) (h : stmt classes start frame s = .ok (code, after)) :
    after = if s.isDeclaration then frame.declare else frame := by
  cases s with
  | block | ifThen | ifElse | loop => cases hs
  | ret value sp =>
    cases value with
    | none => cases h; rfl
    | some value =>
      simp only [stmt, Except.bind_eq_ok, Except.pure_eq_ok, Prod.mk.injEq] at h
      grind [Stmt.isDeclaration]
  | declare | assign | assignIndex | call =>
    simp only [stmt, Except.bind_eq_ok, Except.pure_eq_ok, Prod.mk.injEq] at h
    grind [Stmt.isDeclaration]

mutual

theorem stmt_bounded {start : Nat} {frame after : Frame} {s : Stmt} {code : List Item}
    (hf : frame.Bounded) (h : stmt classes start frame s = .ok (code, after)) :
    after.Bounded ∧ frame.maxSize ≤ after.maxSize := by
  cases s with
  | block body sp =>
    rw [stmt] at h
    obtain ⟨⟨code, inner⟩, hbody, hrest⟩ := Except.bind_eq_ok.mp h
    cases hrest
    obtain ⟨hinner, hle⟩ := stmts_bounded hf hbody
    exact ⟨hf.shrink hinner hle, hle⟩
  | ifThen cond t sp =>
    rw [stmt] at h
    obtain ⟨test, -, h⟩ := Except.bind_eq_ok.mp h
    obtain ⟨⟨code, after⟩, hcode, hrest⟩ := Except.bind_eq_ok.mp h
    cases hrest
    exact stmt_bounded hf hcode
  | ifElse cond t e sp =>
    rw [stmt] at h
    obtain ⟨test, -, h⟩ := Except.bind_eq_ok.mp h
    obtain ⟨⟨code, between⟩, hcode, h⟩ := Except.bind_eq_ok.mp h
    obtain ⟨⟨other, after⟩, hother, hrest⟩ := Except.bind_eq_ok.mp h
    cases hrest
    obtain ⟨hbetween, hle⟩ := stmt_bounded hf hcode
    obtain ⟨hafter, hle'⟩ := stmt_bounded hbetween hother
    exact ⟨hafter, Nat.le_trans hle hle'⟩
  | loop cond body sp =>
    rw [stmt] at h
    obtain ⟨⟨code, after⟩, hcode, h⟩ := Except.bind_eq_ok.mp h
    obtain ⟨test, -, hrest⟩ := Except.bind_eq_ok.mp h
    cases hrest
    exact stmt_bounded hf hcode
  | declare v init sp =>
    rw [stmt_after rfl h]
    exact ⟨hf.declare, Nat.le_max_left _ _⟩
  | assign | assignIndex | call | ret =>
    rw [stmt_after rfl h]
    exact ⟨hf, Nat.le_refl _⟩

theorem stmts_bounded {start : Nat} {frame after : Frame} {ss : List Stmt} {code : List Item}
    (hf : frame.Bounded) (h : stmts classes start frame ss = .ok (code, after)) :
    after.Bounded ∧ frame.maxSize ≤ after.maxSize := by
  cases ss with
  | nil => cases h; exact ⟨hf, Nat.le_refl _⟩
  | cons s ss =>
    rw [stmts] at h
    obtain ⟨⟨first, between⟩, hfirst, h⟩ := Except.bind_eq_ok.mp h
    obtain ⟨⟨rest, after⟩, hrest, hcode⟩ := Except.bind_eq_ok.mp h
    cases hcode
    obtain ⟨hbetween, hle⟩ := stmt_bounded hf hfirst
    obtain ⟨hafter, hle'⟩ := stmts_bounded hbetween hrest
    exact ⟨hafter, Nat.le_trans hle hle'⟩

end

end Generate

/-- The offsets of the static fields of a class, or those of its instance fields. -/
def ClassLayout.offsets (l : ClassLayout) (static : Bool) : List Nat :=
  (l.fields.filter (·.2.isStatic == static)).map (·.2.offset)

/-- A layout of a class names its fields in their order and numbers the instance fields. -/
structure ClassLayout.Numbers (l : ClassLayout) (c : ClassDecl) : Prop where
  name : l.name = c.name
  fields : l.fields.map (fun x => (x.1, x.2.isStatic)) = c.fields.map
    (fun f => (f.name, f.isStatic))
  offsets : l.offsets false = List.range l.size

theorem ClassLayout.map_place (statics size : Nat) (fs : List Field) :
    (place statics size fs).map (fun x => (x.1, x.2.isStatic)) = fs.map
      (fun f => (f.name, f.isStatic)) := by
  induction fs generalizing statics size with
  | nil => rfl
  | cons f fs ih => cases hs : f.isStatic <;> simp [place, hs, ih]

theorem ClassLayout.offsets_place (statics size : Nat) (fs : List Field) :
    ((place statics size fs).filter (·.2.isStatic == true)).map (·.2.offset) =
        List.range' statics (fs.countP (·.isStatic)) ∧
      ((place statics size fs).filter (·.2.isStatic == false)).map (·.2.offset) =
        List.range' size (fs.countP (!·.isStatic)) := by
  induction fs generalizing statics size with
  | nil => exact ⟨rfl, rfl⟩
  | cons f fs ih => cases hs : f.isStatic <;> simpa [place, hs, List.range'_succ] using ih _ _

theorem ClassLayout.numbers_of (statics : Nat)
    (c : ClassDecl) : (ClassLayout.of statics c).Numbers c where
  name := rfl
  fields := map_place statics 0 c.fields
  offsets := by
    rw [List.range_eq_range']
    exact (offsets_place statics 0 c.fields).2

theorem ClassLayouts.numbers_of (statics : Nat) (cs : List ClassDecl) :
    List.Forall₂ ClassLayout.Numbers (of statics cs) cs := by
  induction cs generalizing statics with
  | nil => exact .nil
  | cons c cs ih => exact .cons (ClassLayout.numbers_of statics c) (ih _)

theorem ClassLayouts.static_offsets (statics : Nat) (cs : List ClassDecl) :
    (of statics cs).flatMap (·.offsets true) =
      List.range' statics (cs.flatMap (·.fields.filter (·.isStatic))).length := by
  induction cs generalizing statics with
  | nil => rfl
  | cons c cs ih =>
    have hfirst : (ClassLayout.of statics c).offsets true = List.range' statics c.staticCount :=
      (ClassLayout.offsets_place statics 0 c.fields).1
    have hcount : c.staticCount = (c.fields.filter (·.isStatic)).length :=
      List.countP_eq_length_filter
    rw [of, List.flatMap_cons, ih, hfirst, List.flatMap_cons, List.length_append, ← hcount,
      List.range'_append_1]

namespace Program

theorem isIn_setting (hp : p.Accepted) {x : String × Method}
    (hx : x ∈ p.methods) : (p.setting x.1 x.2).IsIn p where
  accepted := hp
  classes := rfl
  declared := by
    obtain ⟨-, -, -, -, hm⟩ := @Program.hasMethod_of_mem p (p.setting x.1 x.2) rfl x hx
    exact hm

theorem isSound_body (hp : p.Accepted) {x : String × Method} (hx : x ∈ p.methods) (start : Nat) :
    (bodyPart start x.2).IsSound (p.setting x.1 x.2) := by
  obtain ⟨c, hc, hname, hm, -⟩ := @Program.hasMethod_of_mem p (p.setting x.1 x.2) rfl x hx
  refine ⟨⟨rfl, nofun, Nat.le_refl _, Nat.le_refl _, nofun⟩, ⟨fits_entry _, rfl⟩, ?_, ?_, ?_⟩
  · rw [← hname]
    exact hp.bound.bodies c hc x.2 hm
  · exact (hp.methods c hc x.2 hm).body
  · exact (hp.admitted c hc).locals x.2 hm

theorem draft_eq_ok {entry : MethodKey} {d : Draft} (h : p.draft entry = .ok d) :
    d.classes = p.classLayouts ∧ d.preamble = preamble p.staticCount entry ∧
      methodCodes p.classLayouts d.preamble.length p.methods = .ok d.methods := by
  rw [Program.draft] at h
  obtain ⟨codes, hcodes, hrest⟩ := Except.bind_eq_ok.mp h
  cases hrest
  exact ⟨rfl, rfl, hcodes⟩

end Program

/-- The code begins with room for the static fields, one word each, and the call of the entry
method. -/
theorem Program.take_code {entry : MethodKey} {d : Draft} {code : Code}
    (hd : p.draft entry = .ok d) (hlink : d.link = .ok code) :
    ∃ a, d.address entry = some a ∧
      code.toList.take (p.staticCount + 4) =
        List.replicate p.staticCount (Instr.of .push 0 .zr 1) ++ [Instr.of .loadl 0 .zr 0,
      .prim .newarr, .of .call 0 .cb (Word.ofNat a), .of .halt 0 .zr 0] := by
  obtain ⟨instrs, hinstrs, hrest⟩ := Except.bind_eq_ok.mp hlink
  cases hrest
  have hreserve : (List.replicate p.staticCount (Item.reserve 1)).mapM (Item.link d.address) =
      .ok (List.replicate p.staticCount (.of .push 0 .zr 1)) := by
    apply mapM_replicate
    rfl
  rw [Draft.items, (Program.draft_eq_ok hd).2.1, preamble, List.append_assoc, List.mapM_append,
    hreserve, Except.ok_bind, List.mapM_append] at hinstrs
  obtain ⟨later, hlater, hrest⟩ := Except.bind_eq_ok.mp hinstrs
  cases hrest
  obtain ⟨four, hfour, hrest⟩ := Except.bind_eq_ok.mp hlater
  obtain ⟨methods, hmethods, hrest⟩ := Except.bind_eq_ok.mp hrest
  cases hrest
  cases ha : d.address entry with
  | none =>
    simp only [List.mapM_cons, List.mapM_nil, Item.link, ha] at hfour
    cases hfour
  | some a =>
    simp only [List.mapM_cons, List.mapM_nil, Item.link, ha] at hfour
    cases hfour
    refine ⟨a, rfl, ?_⟩
    simp [List.take_append]

/-- A method of a program with its code: wherever code is made in it, words are kept apart, and no
local lies beyond the largest size of the frame. -/
structure Program.Houses (p : Program) (x : String × Method) (mc : MethodCode) : Prop where
  made : methodCode p.classLayouts mc.address x.1 x.2 = .ok mc
  separates : ∀ y, (bodyPart mc.address x.2).Reaches p.classLayouts y → y.Separates x.2.toSignature
  count : mc.frame.locals.length = x.2.locals.length
  bounded : ∀ o ∈ mc.frame.locals, Frame.linkSize ≤ o ∧ o < mc.frame.maxSize

theorem Program.houses_of_mem (hp : p.Accepted) {x : String × Method} (hx : x ∈ p.methods)
    {mc : MethodCode}
    (hmc : methodCode p.classLayouts mc.address x.1 x.2 = .ok mc) : p.Houses x mc := by
  have hbody := Program.isSound_body hp hx mc.address
  obtain ⟨body, frame, hmade, hshape⟩ := methodCode_eq_ok hmc
  have hframe : mc.frame = frame.shrink Frame.linkSize := by rw [hshape]
  obtain ⟨marked, vars, hmarked, -⟩ := exists_scopedStmts [] hmade
  obtain ⟨-, -, htyped, -⟩ := hbody.phrase
  obtain ⟨-, hgrows, -⟩ := scopedStmts_grows htyped (fits_entry _) hmarked
  refine ⟨hmc, fun y hy => ?_, ?_, ?_⟩
  · exact (hy.isSound (Program.isIn_setting hp hx) hbody).separates
  · rw [hframe]
    simpa [Frame.shrink, Frame.entry, Method.locals, bodyPart] using hgrows.count
  · rw [hframe]
    exact (stmts_bounded (.entry _) hmade).1.locals

/-- Scopes and frames of a program agree: words are kept apart in each method, the static fields of
all classes are numbered through and as many words are reserved before the entry method is called,
and each class numbers its instance fields. -/
structure Program.FramesAgree (p : Program) (entry : MethodKey) (d : Draft)
    (code : Code) : Prop where
  methods : List.Forall₂ p.Houses p.methods d.methods
  statics : p.classLayouts.flatMap (·.offsets true) = List.range p.staticCount
  reserved : ∃ a, d.address entry = some a ∧
    code.toList.take (p.staticCount + 4) = List.replicate p.staticCount (.of .push 0 .zr 1) ++
      [.of .loadl 0 .zr 0, .prim .newarr, .of .call 0 .cb (Word.ofNat a), .of .halt 0 .zr 0]
  instances : List.Forall₂ ClassLayout.Numbers p.classLayouts p.allClasses

/-- Scopes and frames agree in every program that gets code. -/
theorem Program.frames_agree {source : Bytes} {entry : MethodKey} {code : Code}
    (h : p.IsBuilt source entry code) :
    ∃ d, p.draft entry = .ok d ∧ d.link = .ok code ∧ p.FramesAgree entry d code := by
  obtain ⟨d, hd, hlink⟩ := h.exists_draft
  refine ⟨d, hd, hlink, ?_, ?_, Program.take_code hd hlink, ClassLayouts.numbers_of 0 p.allClasses⟩
  · obtain ⟨hlength, hcodes⟩ :=
      List.forall₂_iff_zip.mp (methodCodes_eq_ok (Program.draft_eq_ok hd).2.2)
    refine List.forall₂_iff_zip.mpr ⟨hlength, fun {x mc} hmem => ?_⟩
    exact Program.houses_of_mem h.accepted (List.of_mem_zip hmem).1 (hcodes hmem)
  · rw [List.range_eq_range']
    exact ClassLayouts.static_offsets 0 p.allClasses

/-- A program whose second block takes the words of the first one again. -/
def reusesWords : Bytes :=
  ("class Words \x7b static int n; int a; int b; public static void main(String[] args) \x7b " ++
    "int w = 1; \x7b int x = w; System.out.println(x); \x7d " ++
    "\x7b int y = w; int z = y + w; System.out.println(z); \x7d \x7d \x7d").toUTF8.toList

theorem reusesWords_framesAgree :
    ∃ (p : Program) (entry : MethodKey) (d : Draft) (code : Code),
      p.IsBuilt reusesWords entry code ∧ p.draft entry = .ok d ∧ p.FramesAgree entry d code ∧
      d.methods.map (·.frame.locals) = [[3, 4, 4, 5]] := by
  have hbuild :
      (Program.build? reusesWords).map
      (fun x => (x.1.draft x.2.1).toOption.map (·.methods.map (·.frame.locals))) =
        some (some [[3, 4, 4, 5]]) := by decide +kernel
  obtain ⟨⟨p, entry, code⟩, hp, hx⟩ := Option.map_eq_some_iff.mp hbuild
  have hbuilt := Program.isBuilt_of_build? hp
  obtain ⟨d, hd, -, hagree⟩ := Program.frames_agree hbuilt
  refine ⟨p, entry, d, code, hbuilt, hd, hagree, ?_⟩
  simpa [hd, Except.toOption] using hx

end MiniJava
