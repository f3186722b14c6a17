import MiniJava.Proofs.Generate.Control
import MiniJava.Proofs.Machine.Shift
/-!
The height of the stack at each instruction. The generator knows how many words lie above the local
base wherever it makes code, and every way of coming to an instruction finds that many.
-/
namespace MiniJava

open Generate

/-- Whether control can go on behind an instruction. -/
def Instr.falls (i : Instr) : Bool :=
  i.op != Op.jump.number && i.op != Op.ret.number && i.op != Op.halt.number

namespace Generate

namespace Item

def falls : Item → Bool
  | instr i => i.falls
  | _ => true

/-- The words that an item takes and leaves; a call takes the arguments and the object, and leaves
the result. -/
def shift? (p : Program) : Item → Option Shift
  | instr i => i.shift?
  | call key => (p.method? key).map fun m => ⟨m.params.length, m.results⟩
  | callOn key => (p.method? key).map fun m => ⟨m.params.length + 1, m.results⟩
  | create (.object _) => some Prim.newobj.shift
  | create (.array _) => some Prim.newarr.shift

section

variable (P : Program)

@[simp] theorem shift_prim (p : Prim) : (prim p).shift? P = some p.shift := by cases p <;> rfl
@[simp] theorem shift_literal (v : Word) : (literal v).shift? P = some ⟨0, 1⟩ := rfl
@[simp] theorem shift_this : this.shift? P = some ⟨0, 1⟩ := rfl
@[simp] theorem shift_loadField (f : FieldPlace) : (loadField f).shift? P = some ⟨0, 1⟩ := rfl
@[simp] theorem shift_storeField (f : FieldPlace) : (storeField f).shift? P = some ⟨1, 0⟩ := rfl
@[simp] theorem shift_loadVariable (o : Int) : (loadVariable o).shift? P = some ⟨0, 1⟩ := rfl
@[simp] theorem shift_storeVariable (o : Int) : (storeVariable o).shift? P = some ⟨1, 0⟩ := rfl
@[simp] theorem shift_jump (t : Nat) : (jump t).shift? P = some ⟨0, 0⟩ := rfl
@[simp] theorem shift_jumpIf (v : Word) (t : Nat) : (jumpIf v t).shift? P = some ⟨1, 0⟩ := rfl
@[simp] theorem shift_createObject (c : String) : (create (.object c)).shift? P = some ⟨2, 1⟩ := rfl
@[simp] theorem shift_createArray (t : Ty) : (create (.array t)).shift? P = some ⟨1, 1⟩ := rfl

theorem shift_drop {n : Nat} (hn : n < 2 ^ 63) : (drop n).shift? P = some ⟨n, 0⟩ := by
  change (if 0 ≤ (Word.ofNat n).toInt then some (Shift.mk (Word.ofNat n).toInt.toNat 0) else none) =
    _
  rw [Word.toInt_ofNat hn, if_pos (Int.natCast_nonneg n), Int.toNat_natCast]

@[simp] theorem shift_retNone (k : Nat) : (ret 0 k).shift? P = some ⟨0, 0⟩ := rfl
@[simp] theorem shift_ret (k : Nat) : (ret 1 k).shift? P = some ⟨1, 0⟩ := rfl

end

@[simp] theorem falls_prim (p : Prim) : (prim p).falls = true := by cases p <;> rfl
@[simp] theorem falls_literal (v : Word) : (literal v).falls = true := rfl
@[simp] theorem falls_this : this.falls = true := rfl
@[simp] theorem falls_loadField (f : FieldPlace) : (loadField f).falls = true := rfl
@[simp] theorem falls_storeField (f : FieldPlace) : (storeField f).falls = true := rfl
@[simp] theorem falls_loadVariable (o : Int) : (loadVariable o).falls = true := rfl
@[simp] theorem falls_storeVariable (o : Int) : (storeVariable o).falls = true := rfl
@[simp] theorem falls_drop (n : Nat) : (drop n).falls = true := rfl
@[simp] theorem falls_jump (t : Nat) : (jump t).falls = false := rfl
@[simp] theorem falls_jumpIf (v : Word) (t : Nat) : (jumpIf v t).falls = true := rfl
@[simp] theorem falls_ret (n k : Nat) : (ret n k).falls = false := rfl
@[simp] theorem falls_call (key : MethodKey) : (call key).falls = true := rfl
@[simp] theorem falls_callOn (key : MethodKey) : (callOn key).falls = true := rfl
@[simp] theorem falls_create (kind : BlockKind) : (create kind).falls = true := rfl

end Item

variable {p : Program} {E : Setting} {classes : ClassLayouts} {P : Spot} {ps : List Piece}
  {exit : Nat}

/-- The words above the local base where pieces begin, if there are `exit` of them behind the last
piece. -/
def entryOf (exit : Nat) : List Piece → Nat
  | [] => exit
  | .item _ h :: _ => h
  | .part y _ :: _ => y.spot.height

/-- Every part leaves the words that the next piece finds. -/
def Joins (classes : ClassLayouts) (exit : Nat) : List Piece → Prop
  | [] => True
  | .item _ _ :: ps => Joins classes exit ps
  | .part y code :: ps =>
    (∀ h, y.made classes = .ok (code, h) → h = entryOf exit ps) ∧ Joins classes exit ps

/-- What holds of each instruction among the pieces, the words that it finds and those that the next
piece finds. -/
def EachStep (φ : Item → Nat → Nat → Prop) (exit : Nat) : List Piece → Prop
  | [] => True
  | .item i h :: ps => φ i h (entryOf exit ps) ∧ EachStep φ exit ps
  | .part _ _ :: ps => EachStep φ exit ps

/-- An instruction takes no word below `floor`, and leaves what is found behind it. -/
def Item.Keeps (p : Program) (floor : Nat) (i : Item) (height next : Nat) : Prop :=
  ∃ s, i.shift? p = some s ∧ floor + s.pops ≤ height ∧
    (i.falls = true → next + s.pops = height + s.pushes)

/-- Pieces fit together: the first one finds the words of the spot, each finds what the one before
it leaves, and no instruction reaches below the spot. -/
structure Fitting (p : Program) (P : Spot) (exit : Nat) (ps : List Piece) : Prop where
  entry : entryOf exit ps = P.height
  joins : Joins p.classLayouts exit ps
  steps : EachStep (Item.Keeps p P.height) exit ps

theorem made_pos {x : Part} {code : List Item} {h : Nat} (hx : x.made classes = .ok (code, h))
    (hvalue : ∀ es, x.phrase ≠ .exprs es) (hs : ∀ s, x.phrase ≠ .stmt s)
    (hss : ∀ ss, x.phrase ≠ .stmts ss) : 0 < code.length := by
  induction x using Part.induct classes generalizing code h with
  | step x ih =>
    obtain ⟨P, X⟩ := x
    obtain ⟨ps, hps, rfl⟩ := Part.isAssembled hx
    have hparts := ih ps hps
    have hmade := hps.made
    have hpattern := hps.pattern
    cases hpattern with
    | value | callValue =>
      obtain ⟨h', hcode⟩ := (eachPart_part.mp hmade).1
      have := (eachPart_part.mp hparts).1 hcode nofun nofun nofun
      simpa using this
    | noExprs | consExprs => exact absurd rfl (hvalue _)
    | noStmts | consStmts => exact absurd rfl (hss _)
    | block | declare | assignField | assignParam | assignLocal | assignOwnField | assignMember |
        assignIndex | call
    | retNone | ret | ifThen | ifElse | loop => exact absurd rfl (hs _)
    | _ => simp

mutual

/-- Each word that a statement adds to the frame is the work of an instruction. -/
theorem stmt_size_le {start : Nat} {frame after : Frame} {s : Stmt} {code : List Item}
    (h : stmt classes start frame s = .ok (code, after)) :
    after.size ≤ frame.size + code.length := by
  cases s with
  | block body sp =>
    rw [stmt] at h
    obtain ⟨⟨code, inner⟩, hbody, hrest⟩ := Except.bind_eq_ok.mp h
    cases hrest
    exact Nat.le_add_right _ _
  | ifThen cond t sp =>
    rw [stmt] at h
    obtain ⟨test, -, h⟩ := Except.bind_eq_ok.mp h
    obtain ⟨⟨code, after⟩, hcode, hrest⟩ := Except.bind_eq_ok.mp h
    cases hrest
    have := stmt_size_le hcode
    simp only [List.length_append]
    omega
  | ifElse cond t e sp =>
    rw [stmt] at h
    obtain ⟨test, -, h⟩ := Except.bind_eq_ok.mp h
    obtain ⟨⟨code, between⟩, hcode, h⟩ := Except.bind_eq_ok.mp h
    obtain ⟨⟨other, after⟩, hother, hrest⟩ := Except.bind_eq_ok.mp h
    cases hrest
    have := stmt_size_le hcode
    have := stmt_size_le hother
    simp only [List.length_append]
    omega
  | loop cond body sp =>
    rw [stmt] at h
    obtain ⟨⟨code, after⟩, hcode, h⟩ := Except.bind_eq_ok.mp h
    obtain ⟨test, -, hrest⟩ := Except.bind_eq_ok.mp h
    cases hrest
    have := stmt_size_le hcode
    simp only [List.length_append]
    omega
  | declare v init sp =>
    rw [stmt] at h
    obtain ⟨code, hcode, hrest⟩ := Except.bind_eq_ok.mp h
    cases hrest
    have :=
      made_pos (x := ⟨⟨start, frame.declare, [], 0⟩, .expr init⟩) (made_expr.mpr ⟨hcode, rfl⟩) nofun
        nofun nofun
    simp only [Frame.declare]
    omega
  | assign | assignIndex | call | ret =>
    rw [stmt_after rfl h]
    exact Nat.le_add_right _ _

theorem stmts_size_le {start : Nat} {frame after : Frame} {ss : List Stmt} {code : List Item}
    (h : stmts classes start frame ss = .ok (code, after)) :
    after.size ≤ frame.size + code.length := by
  cases ss with
  | nil => cases h; exact Nat.le_add_right _ _
  | cons s ss =>
    rw [stmts] at h
    obtain ⟨⟨first, between⟩, hfirst, h⟩ := Except.bind_eq_ok.mp h
    obtain ⟨⟨rest, after⟩, hrest, hcode⟩ := Except.bind_eq_ok.mp h
    cases hcode
    have := stmt_size_le hfirst
    have := stmts_size_le hrest
    simp only [List.length_append]
    omega

end

/-- A statement that declares nothing leaves the size of the frame as it was. -/
theorem stmt_size {m : Signature} {start : Nat} {frame after : Frame} {vars : List Local}
    {s : Stmt} {code : List Item} (ht : s.WellTyped m) (hd : s.isDeclaration = false)
    (hf : Fits frame vars)
    (h : stmt classes start frame s = .ok (code, after)) : after.size = frame.size := by
  have hafter := (stmt_fits ht hf h).1
  rw [seen_of_not_declaration hd] at hafter
  rw [hafter.size, hf.size]

theorem stmts_size {m : Signature} {start : Nat} {frame after : Frame} {vars : List Local}
    {ss : List Stmt} {code : List Item} (ht : Stmt.AllWellTyped m ss) (hf : Fits frame vars)
    (h : stmts classes start frame ss = .ok (code, after)) : frame.size ≤ after.size := by
  obtain ⟨marked, vars', hmarked, -⟩ := exists_scopedStmts vars h
  obtain ⟨hafter, -, hvars⟩ := scopedStmts_grows ht hf hmarked
  rw [hf.size, hafter.size]
  exact Nat.add_le_add_left hvars.length_le _

theorem shift_strategy {op : BinaryOp} {q : Prim}
    (h : strategy op = .prim q) : q.shift = ⟨2, 1⟩ := by
  cases op <;> cases h <;> rfl

section Fitting

variable {code : List Item}

theorem fitting_ref {r : Ref}
    (hps : Pattern p.classLayouts P (.ref r) ps) : Fitting p P (P.height + 1) ps := by
  cases hps <;> refine ⟨rfl, ?_, ?_⟩ <;> simp [Joins, EachStep, entryOf, Item.Keeps, Prim.shift]

theorem call_exit {r : Ref} {args : List Expr} {owner : String} {m : Signature} {h : Nat}
    (hm : r.meaning = some (.method owner m))
    (hmade : (⟨P, .call r args⟩ : Part).made classes = .ok (code, h)) :
    h = P.height + m.results := by
  obtain ⟨owner', m', -, -, hm', -, -, -, rfl⟩ := made_call.mp hmade
  cases hm.symm.trans hm'
  rfl

theorem fitting_expr {e : Expr} (he : (Phrase.expr e).IsSound E P)
    (hps : Pattern p.classLayouts P (.expr e) ps) : Fitting p P (P.height + 1) ps := by
  obtain ⟨hbound, t, hvoid, ht⟩ := he
  cases hps with
  | unary =>
    rename_i op s e code
    cases op <;> refine ⟨rfl, ?_, ?_⟩ <;> simp [Joins, EachStep, entryOf, Item.Keeps, Prim.shift,
      unaryPrim]
  | binary left right hop =>
    have hshift := shift_strategy hop
    refine ⟨rfl, ?_, ?_⟩ <;> simp [Joins, EachStep, entryOf, Item.Keeps, hshift, Spot.on]
  | callValue =>
    cases ht with
    | call hm hfit =>
      refine ⟨rfl, ⟨fun h hh => ?_, trivial⟩, trivial⟩
      rw [call_exit hm hh, Signature.results, if_neg hvoid]
      rfl
  | _ => refine ⟨rfl, ?_, ?_⟩ <;> simp [Joins, EachStep, entryOf, Item.Keeps, Prim.shift, Spot.on]

theorem fitting_exprs {es : List Expr} (hps : Pattern p.classLayouts P (.exprs es) ps) :
    Fitting p P (P.height + es.length) ps := by
  cases hps with
  | noExprs => exact ⟨rfl, trivial, trivial⟩
  | consExprs first rest =>
    refine ⟨rfl, ?_, trivial⟩
    simp only [Joins, entryOf, made_expr, made_exprs, Spot.on, List.length_cons]
    grind

variable (hE : E.IsIn p)

include hE

theorem fitting_call {r : Ref} {args : List Expr} {owner : String} {m : Signature}
    (hm : r.meaning = some (.method owner m)) (hr : (Phrase.call r args).IsSound E P)
    (hps : Pattern p.classLayouts P (.call r args) ps) : Fitting p P (P.height + m.results) ps := by
  obtain ⟨hargs, owner', m', hd, hfit⟩ := hr
  cases hd.meaning_eq.symm.trans hm
  have hlength := Check.length_eq_of_argsFit hfit
  have hmethod (hprint : isPrintln owner m = false) :
      ∃ method, p.method? ⟨owner, m.name⟩ = some method ∧ method.params.length = m.params.length ∧
        method.results = m.results := by
    obtain ⟨method, hfound, rfl⟩ := hE.accepted.bound.exists_method? hE.classes hd.hasMethod hprint
    exact ⟨method, hfound, rfl, rfl⟩
  cases hps with
  | print hm' hprint =>
    cases hm'.symm.trans hm
    cases hE.accepted.bound.println_eq hE.classes hd.hasMethod hprint
    have hparams : Library.println.params.length = 1 := rfl
    have hresults : Library.println.results = 0 := rfl
    refine ⟨rfl, ?_, ?_⟩
    · simp [Joins, entryOf]
    · simp [EachStep, entryOf, Item.Keeps, Prim.shift, hlength, hparams, hresults]
  | callStatic hm' hprint hstatic =>
    cases hm'.symm.trans hm
    obtain ⟨method, hfound, hparams, hresults⟩ := hmethod hprint
    refine ⟨rfl, ?_, ?_⟩
    · simp [Joins, entryOf]
    · simp [EachStep, entryOf, Item.Keeps, Item.shift?, hfound, hparams, hresults, hlength]
      omega
  | callMember values code hprint hstatic =>
    cases hm
    obtain ⟨method, hfound, hparams, hresults⟩ := hmethod hprint
    refine ⟨rfl, ?_, ?_⟩
    · simp [Joins, entryOf, Spot.on]
    · simp [EachStep, entryOf, Item.Keeps, Item.shift?, hfound, hparams, hresults, hlength]
      omega
  | callOwn hm' hmember hprint hstatic =>
    cases hm'.symm.trans hm
    obtain ⟨method, hfound, hparams, hresults⟩ := hmethod hprint
    refine ⟨rfl, ?_, ?_⟩
    · simp [Joins, entryOf]
    · simp [EachStep, entryOf, Item.Keeps]
      simp [Item.shift?, hfound, hparams, hresults, hlength]
      omega

omit hE in
theorem branch_exit {Q : Spot} {t : Stmt} {h : Nat} (hQ : (⟨Q, .stmt t⟩ : Part).IsSound E)
    (hd : t.isDeclaration = false)
    (hmade : (⟨Q, .stmt t⟩ : Part).made classes = .ok (code, h)) : h = Q.height := by
  obtain ⟨-, ⟨hfits, hheight⟩, -, ht, -⟩ := hQ
  obtain ⟨after, hafter, rfl⟩ := made_stmt.mp hmade
  exact (stmt_size ht hd hfits hafter).trans hheight.symm

theorem fitting_stmt {s : Stmt} {after : Frame} (hs : (⟨P, .stmt s⟩ : Part).IsSound E)
    (hmade : stmt p.classLayouts P.start P.frame s = .ok (code, after))
    (hcode : code.length < 2 ^ 63)
    (hps : (⟨P, .stmt s⟩ : Part).Splits p.classLayouts ps) : Fitting p P after.size ps := by
  have hparts := hs.pieces hE hps
  have hassembled := hps.assembled (made_stmt.mpr ⟨after, hmade, rfl⟩)
  obtain ⟨-, hrests, -, ht, -⟩ := hs
  have hfits : Fits P.frame P.vars := hrests.fits
  have hheight : P.height = P.frame.size := hrests.height
  have hps : Pattern p.classLayouts P (.stmt s) ps := hps.pattern
  have hsize (hd : s.isDeclaration = false) : after.size = P.height :=
    (stmt_size ht hd hfits hmade).trans hheight.symm
  cases ht with
  | block ht =>
    rw [hsize rfl]
    cases hps with
    | @block body sp inside inner hbody =>
      have hgrown := stmts_size ht hfits hbody
      have hadded := stmts_size_le hbody
      have hlength : inside.length ≤ code.length := by rw [← hassembled]; simp
      unfold dropLocals
      split
      · refine ⟨rfl, ?_, trivial⟩
        simp [Joins, entryOf, hbody]
        omega
      · refine ⟨rfl, ?_, ?_⟩
        · simp [Joins, entryOf, hbody]
        · simp [EachStep, entryOf, Item.Keeps,
            Item.shift_drop p (n := inner.size - P.frame.size) (by omega)]
          omega
  | declare ht haccepts =>
    cases hps with
    | declare =>
      refine ⟨rfl, ?_, trivial⟩
      simp [Joins, entryOf, stmt_after rfl hmade, Stmt.isDeclaration, Frame.declare, hheight]
  | assign hr hvalue haccepts =>
    rw [hsize rfl]
    cases hps <;> refine ⟨rfl, ?_, ?_⟩ <;> simp [Joins, EachStep, entryOf, Item.Keeps, Prim.shift,
      Spot.on]
  | assignIndex hr hi hvalue haccepts =>
    rw [hsize rfl]
    cases hps
    refine ⟨rfl, ?_, ?_⟩ <;> simp [Joins, EachStep, entryOf, Item.Keeps, Prim.shift, Spot.on]
  | call hm' hfit =>
    rw [hsize rfl]
    cases hps with
    | call hm =>
      unfold dropResult
      split
      · rename_i hvoid
        refine ⟨rfl, ⟨fun h hh => ?_, trivial⟩, trivial⟩
        rw [call_exit hm hh, Signature.results, if_pos hvoid]
        rfl
      · rename_i hvoid
        refine ⟨rfl, ⟨fun h hh => ?_, trivial⟩, ?_⟩
        · rw [call_exit hm hh, Signature.results, if_neg hvoid]
          rfl
        · simp [EachStep, entryOf, Item.Keeps, Item.shift_drop p (n := 1) (by decide)]
  | retNone hvoid =>
    rw [hsize rfl]
    cases hps
    refine ⟨rfl, ?_, ?_⟩ <;> simp [Joins, EachStep, entryOf, Item.Keeps]
  | ret hvoid hvalue haccepts =>
    rw [hsize rfl]
    cases hps
    refine ⟨rfl, ?_, ?_⟩ <;> simp [Joins, EachStep, entryOf, Item.Keeps]
  | ifThen hc hd ht =>
    rw [hsize rfl]
    cases hps with
    | ifThen test inside =>
      simp only [eachPart_part, eachPart_item, eachPart_nil, and_true] at hparts
      refine ⟨rfl, ⟨fun h hh => (made_expr.mp hh).2, fun h hh => (branch_exit hparts.2 hd hh :),
        trivial⟩, ?_⟩
      simp [EachStep, entryOf, Item.Keeps, Spot.on]
  | ifElse hc hd ht he hte =>
    rw [hsize rfl]
    cases hps with
    | ifElse test other hinside =>
      simp only [eachPart_part, eachPart_item, eachPart_nil, and_true] at hparts
      refine ⟨rfl, ⟨fun h hh => (made_expr.mp hh).2, fun h hh => (branch_exit hparts.2.1 hd hh :),
        fun h hh => (branch_exit hparts.2.2 he hh :), trivial⟩, ?_⟩
      simp [EachStep, entryOf, Item.Keeps, Spot.on]
  | loop hc hd ht =>
    rw [hsize rfl]
    cases hps with
    | loop test hinside =>
      simp only [eachPart_part, eachPart_item, eachPart_nil, and_true] at hparts
      refine ⟨rfl, ⟨fun h hh => (branch_exit hparts.1 hd hh :), fun h hh => (made_expr.mp hh).2,
        trivial⟩, ?_⟩
      simp [EachStep, entryOf, Item.Keeps, Spot.on]

omit hE in
theorem fitting_stmts {ss : List Stmt} {after : Frame} (hss : (Phrase.stmts ss).IsSound E P)
    (hmade : stmts p.classLayouts P.start P.frame ss = .ok (code, after))
    (hps : (⟨P, .stmts ss⟩ : Part).Splits p.classLayouts ps) : Fitting p P after.size ps := by
  have hassembled := hps.assembled (made_stmts.mpr ⟨after, hmade, rfl⟩)
  obtain ⟨⟨-, hheight⟩, -⟩ := hss
  obtain ⟨hps, hparts⟩ := hps
  cases hps with
  | noStmts =>
    cases hmade
    exact ⟨hheight.symm, trivial, trivial⟩
  | consStmts rest hfirst =>
    rw [stmts, hfirst, Except.ok_bind] at hmade
    obtain ⟨⟨rest', after'⟩, hrest, hcode⟩ := Except.bind_eq_ok.mp hmade
    cases hcode
    refine ⟨rfl, ⟨fun h hh => ?_, fun h hh => ?_, trivial⟩, trivial⟩
    · obtain ⟨between', hbetween, rfl⟩ := made_stmt.mp hh
      cases hfirst.symm.trans hbetween
      rfl
    · obtain ⟨after', hafter, rfl⟩ := made_stmts.mp hh
      cases hrest.symm.trans hafter
      rfl

theorem Part.IsSound.fitting {x : Part} {exit : Nat} (hx : x.IsSound E)
    (hmade : x.made p.classLayouts = .ok (code, exit)) (hcode : code.length < 2 ^ 63)
    (hps : x.Splits p.classLayouts ps) : Fitting p x.spot exit ps := by
  obtain ⟨P, X⟩ := x
  cases X with
  | ref r =>
    cases (made_ref.mp hmade).2
    exact fitting_ref hps.pattern
  | expr e =>
    cases (made_expr.mp hmade).2
    exact fitting_expr hx.phrase hps.pattern
  | exprs es =>
    cases (made_exprs.mp hmade).2
    exact fitting_exprs hps.pattern
  | call r args =>
    obtain ⟨owner, m, -, -, hm, -, -, -, rfl⟩ := made_call.mp hmade
    exact fitting_call hE hm hx.phrase hps.pattern
  | stmt s =>
    obtain ⟨after, hafter, rfl⟩ := made_stmt.mp hmade
    exact fitting_stmt hE hx hafter hcode hps
  | stmts ss =>
    obtain ⟨after, hafter, rfl⟩ := made_stmts.mp hmade
    exact fitting_stmts hx.phrase hafter hps

end Fitting

theorem Part.Reaches.head {x z : Part} (h : x.Reaches classes z) :
    z = x ∨ ∃ ps y code, x.Splits classes ps ∧ .part y code ∈ ps ∧ y.Reaches classes z := by
  induction h with
  | self => exact .inl rfl
  | @piece y z ps code hxy hps hz ih =>
    rcases ih with rfl | ⟨qs, w, inside, hqs, hw, hwy⟩
    · exact .inr ⟨ps, z, code, hps, hz, .self⟩
    · exact .inr ⟨qs, w, inside, hqs, hw, .piece hwy hps hz⟩

theorem Part.Reaches.length_le {x y : Part} (hxy : x.Reaches classes y) {code code' : List Item}
    {h h' : Nat} (hx : x.made classes = .ok (code, h))
    (hy : y.made classes = .ok (code', h')) : code'.length ≤ code.length := by
  obtain ⟨_, _, hmade, hle, hle'⟩ := hxy.bounds hx
  cases hy.symm.trans hmade
  omega

section Marks

variable {H K : Nat → Nat} {start : Nat}

/-- Heights of addresses are those with which the code of a part is made: at its first address,
right behind it and at its own instructions. -/
structure Marks (classes : ClassLayouts) (H : Nat → Nat) (y : Part) : Prop where
  entry : H y.spot.start = y.spot.height
  exit : ∀ code h, y.made classes = .ok (code, h) → H (y.spot.start + code.length) = h
  own : ∀ ps, y.Splits classes ps → EachOwn (fun a _ h => H a = h) y.spot.start ps

theorem EachOwn.congr (h : EachOwn (fun a _ h => H a = h) start ps)
    (heq : ∀ a, start ≤ a → a ≤ start + (assembled ps).length → K a = H a) :
    EachOwn (fun a _ h => K a = h) start ps := by
  induction ps generalizing start with
  | nil => trivial
  | cons piece ps ih =>
    cases piece with
    | item i height =>
      simp only [assembled_item, List.length_cons] at heq
      exact ⟨(heq start (Nat.le_refl _) (by omega)).trans h.1,
        ih h.2 fun a ha ha' => heq a (by omega) (by omega)⟩
    | part y code =>
      simp only [assembled_part, List.length_append] at heq
      exact ih h fun a ha ha' => heq a (by omega) (by omega)

/-- Only the heights from the first address of a part to the one behind its last count. -/
theorem Marks.congr {y : Part} {code : List Item} {h : Nat} (hy : Marks classes H y)
    (hmade : y.made classes = .ok (code, h))
    (heq : ∀ a, y.spot.start ≤ a → a ≤ y.spot.start + code.length → K a = H a) :
    Marks classes K y where
  entry := (heq _ (Nat.le_refl _) (Nat.le_add_right _ _)).trans hy.entry
  exit code' h' hmade' := by
    cases hmade.symm.trans hmade'
    exact (heq _ (Nat.le_add_right _ _) (Nat.le_refl _)).trans (hy.exit code h hmade)
  own ps hps := by
    refine (hy.own ps hps).congr ?_
    rwa [hps.assembled hmade]

/-- Heights of all that a part reaches. -/
abbrev MarksAll (classes : ClassLayouts) (H : Nat → Nat) (y : Part) : Prop :=
  ∀ z, y.Reaches classes z → Marks classes H z

theorem MarksAll.congr {y : Part} {code : List Item} {h : Nat} (hy : MarksAll classes H y)
    (hmade : y.made classes = .ok (code, h))
    (heq : ∀ a, y.spot.start ≤ a → a ≤ y.spot.start + code.length → K a = H a) :
    MarksAll classes K y := by
  intro z hz
  obtain ⟨code', h', hmade', hlo, hhi⟩ := hz.bounds hmade
  exact (hy z hz).congr hmade' fun a ha ha' => heq a (by omega) (by omega)

/-- Heights of pieces that follow each other. -/
structure MarksPieces (classes : ClassLayouts) (H : Nat → Nat) (exit start : Nat)
    (ps : List Piece) : Prop where
  parts : EachPart (fun y _ => MarksAll classes H y) ps
  own : EachOwn (fun a _ h => H a = h) start ps
  exit : H (start + (assembled ps).length) = exit

theorem MarksPieces.entry (h : MarksPieces classes H exit start ps) (haligned : Aligned start ps) :
    H start = entryOf exit ps := by
  cases ps with
  | nil => exact h.exit
  | cons piece ps =>
    cases piece with
    | item i height => exact h.own.1
    | part y code =>
      rw [← haligned.1]
      exact ((eachPart_part.mp h.parts).1 y .self).entry

theorem MarksPieces.congr (h : MarksPieces classes H exit start ps) (haligned : Aligned start ps)
    (hmade : AllMade classes ps)
    (heq : ∀ a, start ≤ a → a ≤ start + (assembled ps).length → K a = H a) :
    MarksPieces classes K exit start ps where
  parts y code hy := by
    obtain ⟨height, hcode⟩ := hmade y code hy
    have hbounds := haligned.bounds y code hy
    exact (h.parts y code hy).congr hcode fun a ha ha' => heq a (by omega) (by omega)
  own := h.own.congr heq
  exit := (heq _ (Nat.le_add_right _ _) (Nat.le_refl _)).trans h.exit

theorem exists_marksPieces (haligned : Aligned start ps) (hmade : AllMade classes ps)
    (hjoins : Joins classes exit ps) (hparts : EachPart (fun y _ => ∃ H, MarksAll classes H y) ps) :
    ∃ H, MarksPieces classes H exit start ps := by
  induction ps generalizing start with
  | nil => exact ⟨fun _ => exit, eachPart_nil, trivial, rfl⟩
  | cons piece ps ih =>
    cases piece with
    | item i height =>
      have hmade := eachPart_item.mp hmade
      obtain ⟨H, hH⟩ := ih haligned hmade hjoins (eachPart_item.mp hparts)
      refine ⟨fun a => if a = start then height else H a, ?_⟩
      have hrest := hH.congr (K := fun a => if a = start then height else H a) haligned hmade
        fun a ha _ => if_neg (by omega)
      refine ⟨eachPart_item.mpr hrest.parts, ⟨if_pos rfl, hrest.own⟩, ?_⟩
      rw [assembled_item, List.length_cons, Nat.add_comm _ 1, ← Nat.add_assoc]
      exact hrest.exit
    | part y code =>
      obtain ⟨⟨height, hcode⟩, hmade⟩ := eachPart_part.mp hmade
      obtain ⟨⟨G, hG⟩, hparts⟩ := eachPart_part.mp hparts
      obtain ⟨hstart, haligned⟩ := haligned
      obtain ⟨hjoin, hjoins⟩ := hjoins
      obtain ⟨H, hH⟩ := ih haligned hmade hjoins hparts
      -- The height behind the part is the one with which the next piece begins.
      have hborder : H (start + code.length) = G (start + code.length) := by
        rw [hH.entry haligned, ← hjoin height hcode, ← hstart]
        exact ((hG y .self).exit code height hcode).symm
      refine ⟨fun a => if a < start + code.length then G a else H a, ?_⟩
      have hfirst := hG.congr
          (K := fun a => if a < start + code.length then G a else H a) hcode fun a ha ha' => by
        rcases Nat.lt_or_ge a (start + code.length) with hlt | hge
        · exact if_pos hlt
        · rw [if_neg (by omega), show a = start + code.length by omega, hborder]
      have hrest := hH.congr
        (K := fun a => if a < start + code.length then G a else H a) haligned hmade
        fun a ha _ => if_neg (by omega)
      refine ⟨eachPart_part.mpr ⟨hfirst, hrest.parts⟩, hrest.own, ?_⟩
      rw [assembled_part, List.length_append, ← Nat.add_assoc]
      exact hrest.exit

theorem MarksPieces.marksAll {x : Part} {code : List Item}
    (h : MarksPieces classes H exit x.spot.start ps) (hps : x.Splits classes ps)
    (hmade : x.made classes = .ok (code, exit))
    (hentry : entryOf exit ps = x.spot.height) : MarksAll classes H x := by
  intro z hz
  rcases hz.head with rfl | ⟨qs, y, inside, hqs, hy, hz⟩
  · refine ⟨(h.entry hps.pattern.aligned).trans hentry, fun code' h' hmade' => ?_, fun qs hqs => ?_⟩
    · cases hmade.symm.trans hmade'
      rw [← hps.assembled hmade]
      exact h.exit
    · rw [hqs.unique hps]
      exact h.own
  · rw [hqs.unique hps] at hy
    exact h.parts y inside hy z hz

theorem exists_marks (hE : E.IsIn p) (x : Part) :
    ∀ {code : List Item} {h : Nat}, x.IsSound E → x.made p.classLayouts = .ok (code, h) →
      code.length < 2 ^ 63 → ∃ H, MarksAll p.classLayouts H x := by
  induction x using Part.induct p.classLayouts with
  | step x ih =>
    intro code h hx hmade hcode
    obtain ⟨ps, hps, rfl⟩ := Part.isAssembled hmade
    have hfitting := hx.fitting hE hmade hcode hps
    have hparts : EachPart (fun y _ => ∃ H, MarksAll p.classLayouts H y) ps := by
      intro y inside hy
      obtain ⟨h', hinside⟩ := hps.made y inside hy
      have hbounds := hps.pattern.aligned.bounds y inside hy
      exact ih ps hps y inside hy (hx.pieces hE hps y inside hy) hinside (by omega)
    obtain ⟨H, hH⟩ := exists_marksPieces hps.pattern.aligned hps.made hfitting.joins hparts
    exact ⟨H, hH.marksAll hps hmade hfitting.entry⟩

theorem EachStep.own {φ : Item → Nat → Nat → Prop} (h : EachStep φ exit ps)
    (haligned : Aligned start ps) (hmarks : MarksPieces classes H exit start ps) :
    EachOwn (fun a i _ => φ i (H a) (H (a + 1))) start ps := by
  induction ps generalizing start with
  | nil => trivial
  | cons piece ps ih =>
    cases piece with
    | item i height =>
      have hrest : MarksPieces classes H exit (start + 1) ps := by
        refine ⟨eachPart_item.mp hmarks.parts, hmarks.own.2, ?_⟩
        rw [Nat.add_assoc, Nat.add_comm 1]
        exact hmarks.exit
      refine ⟨?_, ih h.2 haligned hrest⟩
      have hfirst : H start = height := hmarks.own.1
      simp only [hfirst, hrest.entry haligned]
      exact h.1
    | part y code =>
      refine ih h haligned.2 ⟨(eachPart_part.mp hmarks.parts).2, hmarks.own, ?_⟩
      rw [← hmarks.exit, assembled_part, List.length_append, Nat.add_assoc]

theorem MarksAll.pieces {x : Part} {code : List Item} {h : Nat} (hx : MarksAll classes H x)
    (hmade : x.made classes = .ok (code, h)) (hps : x.Splits classes ps) :
    MarksPieces classes H h x.spot.start ps where
  parts _ _ hy z hz := hx z ((Part.Reaches.piece .self hps hy).trans hz)
  own := (hx x .self).own ps hps
  exit := by
    rw [hps.assembled hmade]
    exact (hx x .self).exit code h hmade

theorem Item.jumpsTo_jump {t t' : Nat} (h : t = t') : (jump t).JumpsTo t' := .inl (h ▸ rfl)

theorem Item.jumpsTo_jumpIf {v : Word} {t t' : Nat}
    (h : t = t') : (jumpIf v t).JumpsTo t' := .inr ⟨v, h ▸ rfl⟩

/-- A jump of a part's own goes where as many words are found as it leaves. -/
theorem MarksAll.jumps {x : Part} {code : List Item} {h : Nat} (hx : MarksAll p.classLayouts H x)
    (hsound : x.IsSound E) (hmade : x.made p.classLayouts = .ok (code, h))
    (hps : x.Splits p.classLayouts ps) :
    EachOwn (fun a i _ => i.isJump = true → ∃ t s, i.JumpsTo t ∧ t ≤ x.spot.start + code.length ∧
        i.shift? p = some s ∧ H t + s.pops = H a + s.pushes) x.spot.start ps := by
  obtain ⟨P, X⟩ := x
  obtain ⟨hparts, hown, hexit⟩ := hx.pieces hmade hps
  have hassembled := hps.assembled hmade
  subst hassembled
  obtain ⟨hps, -⟩ := hps
  cases hps with
  | shortCircuit left right hop =>
    have hh : h = P.height + 1 := (made_expr.mp hmade).2
    simp only [eachOwn_part, eachOwn_item, eachOwn_nil, and_true, assembled_part, assembled_item,
      assembled_nil, List.length_append, List.length_cons, List.length_nil, zero_add, Nat.reduceAdd,
      exists_and_left, Item.shift_jumpIf, Option.some.injEq, exists_eq_left', add_zero,
      Item.shift_jump, Item.isJump_literal, Bool.false_eq_true, Item.shift_literal,
      IsEmpty.forall_iff, and_self] at hown hexit ⊢
    obtain ⟨htest, hright, hdecided⟩ := hown
    rw [htest, hright]
    exact ⟨fun _ => ⟨_, Item.jumpsTo_jumpIf (by omega), by omega, congrArg (· + 1) hdecided⟩,
      fun _ => ⟨_, Item.jumpsTo_jump (by omega), Nat.le_refl _, by rw [hexit, hh]⟩⟩
  | ifThen test code =>
    have hh : h = P.height := branch_exit hsound rfl hmade
    simp only [eachOwn_part, eachOwn_item, eachOwn_nil, and_true, assembled_part, assembled_item,
      assembled_nil, List.append_nil, List.length_append, List.length_cons, exists_and_left,
      Item.shift_jumpIf, Option.some.injEq, exists_eq_left', add_zero] at hown hexit ⊢
    rw [hown]
    exact fun _ => ⟨_, Item.jumpsTo_jumpIf (by omega), Nat.le_refl _, by rw [hexit, hh]⟩
  | ifElse test other hcode =>
    have hh : h = P.height := branch_exit hsound rfl hmade
    simp only [eachOwn_part, eachOwn_item, eachOwn_nil, and_true, eachPart_part, eachPart_item,
      eachPart_nil, assembled_part, assembled_item, assembled_nil, List.append_nil,
      List.length_append, List.length_cons, exists_and_left, Item.shift_jumpIf, Option.some.injEq,
      exists_eq_left', add_zero, Item.shift_jump] at hown hparts hexit ⊢
    obtain ⟨htest, hfirst⟩ := hown
    rw [htest, hfirst]
    exact ⟨fun _ => ⟨_, Item.jumpsTo_jumpIf rfl, by
      omega, congrArg (· + 1) (hparts.2.2 _ .self).entry⟩,
      fun _ => ⟨_, Item.jumpsTo_jump (by omega), Nat.le_refl _, by rw [hexit, hh]⟩⟩
  | loop test hcode =>
    simp only [eachOwn_item, eachOwn_part, eachOwn_nil, and_true, eachPart_item, eachPart_part,
      eachPart_nil, assembled_item, assembled_part, assembled_nil, List.length_cons,
      List.length_append, List.length_nil, zero_add, exists_and_left, Item.shift_jump,
      Option.some.injEq, exists_eq_left', add_zero, Item.shift_jumpIf] at hown hparts hexit ⊢
    obtain ⟨hfirst, htest⟩ := hown
    rw [hfirst, htest]
    exact ⟨fun _ => ⟨_, Item.jumpsTo_jump rfl, by omega, (hparts.2 _ .self).entry⟩,
      fun _ => ⟨_, Item.jumpsTo_jumpIf rfl, by omega, congrArg (· + 1) (hparts.1 _ .self).entry⟩⟩
  | _ => exact EachOwn.of_not (by simp)

/-- What an instruction at an address does to the height, wherever control goes from it. -/
structure Item.Levels (p : Program) (H : Nat → Nat) (floor stop a : Nat) (i : Item)
    (s : Shift) : Prop where
  shift : i.shift? p = some s
  floor : floor + s.pops ≤ H a
  next : i.falls = true → H (a + 1) + s.pops = H a + s.pushes
  jump : i.isJump = true → ∃ t, i.JumpsTo t ∧ t ≤ stop ∧ H t + s.pops = H a + s.pushes

/-- An instruction of a part's own. -/
def Part.Owns (classes : ClassLayouts) (y : Part) (a : Nat) (i : Item) : Prop :=
  ∃ ps h, y.Splits classes ps ∧ (a, i, h) ∈ Generate.own y.spot.start ps

theorem MarksAll.levels {x y : Part} {code : List Item} {h a : Nat} {i : Item}
    (hH : MarksAll p.classLayouts H x) (hE : E.IsIn p) (hx : x.IsSound E)
    (hmade : x.made p.classLayouts = .ok (code, h)) (hcode : code.length < 2 ^ 63)
    (hxy : x.Reaches p.classLayouts y) (hown : y.Owns p.classLayouts a i) :
    ∃ s, i.Levels p H y.spot.height (x.spot.start + code.length) a s := by
  obtain ⟨ps, height, hps, hown⟩ := hown
  obtain ⟨code', h', hmade', -, hstop⟩ := hxy.bounds hmade
  have hlength := hxy.length_le hmade hmade'
  have hy := hxy.isSound hE hx
  have hHy : MarksAll p.classLayouts H y := fun z hz => hH z (hxy.trans hz)
  have hsteps :=
    (hy.fitting hE hmade' (by omega) hps).steps.own hps.pattern.aligned (hHy.pieces hmade' hps)
  obtain ⟨s, hs, hfloor, hnext⟩ := hsteps.of_mem hown
  refine ⟨s, hs, hfloor, hnext, fun hjump => ?_⟩
  obtain ⟨t, s', ht, hle, hs', heq⟩ := (hHy.jumps hy hmade' hps).of_mem hown hjump
  cases hs.symm.trans hs'
  exact ⟨t, ht, by omega, heq⟩

end Marks

def Phrase.isStmt : Phrase → Bool
  | .stmt _ | .stmts _ => true
  | _ => false

/-- The parts of a value are values in the same frame. -/
theorem Pattern.values {X : Phrase} (hX : Pattern classes P X ps) (hv : X.isStmt = false) :
    EachPart (fun z _ => z.phrase.isStmt = false ∧ z.spot.frame = P.frame ∧
      P.height ≤ z.spot.height) ps := by
  cases hX <;> simp [Phrase.isStmt, Spot.on] at hv ⊢

/-- A part of the initializer of a variable, made for a frame with the word of the variable, which
is not there yet. -/
structure Part.InInit (classes : ClassLayouts) (x y : Part) : Prop where
  value : y.phrase.isStmt = false
  declared : ∃ z v init s, x.Reaches classes z ∧ z.phrase = .stmt (.declare v init s) ∧
    z.Reaches classes y ∧
    y.spot.frame.size = z.spot.frame.size + 1 ∧ z.spot.frame.size ≤ y.spot.height

theorem Part.InInit.pieces {x y : Part} (h : x.InInit classes y) (hps : y.Splits classes ps) :
    EachPart (fun z _ => x.InInit classes z) ps := by
  intro z code hz
  obtain ⟨hvalue, hframe, hle⟩ := hps.pattern.values h.value z code hz
  obtain ⟨w, v, init, s, hw, hdeclare, hwy, hsize, hheight⟩ := h.declared
  exact ⟨hvalue, w, v, init, s, hw, hdeclare, .piece hwy hps hz, by rw [hframe, hsize],
    Nat.le_trans hheight hle⟩

/-- The values of a statement are made for its frame, but for an initializer and for the test of a
loop. -/
theorem Pattern.stmt_values {s : Stmt} (hX : Pattern classes P (.stmt s) ps) :
    EachPart (fun z _ => z.phrase.isStmt = false → z.spot.frame = P.frame ∧
      P.height ≤ z.spot.height ∨
      (∃ v init sp, s = .declare v init sp ∧ z.spot.frame = P.frame.declare ∧
      z.spot.height = P.height) ∨
      ∃ cond body sp start code, s = .loop cond body sp ∧
        stmt classes start P.frame body = .ok (code, z.spot.frame) ∧
        z.spot.height = P.height) ps := by
  cases hX with
  | loop test hcode =>
    simp only [eachPart_part, eachPart_item, eachPart_nil, and_true]
    exact ⟨Bool.noConfusion, fun _ => .inr (.inr ⟨_, _, _, _, _, rfl, hcode⟩)⟩
  | _ => simp [Phrase.isStmt, Spot.on]

/-- The frame of a part is on the stack, but for the word of a variable in its initializer. -/
theorem Part.IsSound.frame_pieces (hE : E.IsIn p) {x y : Part} (hxy : x.Reaches p.classLayouts y)
    (hy : y.IsSound E) (hsize : y.spot.frame.size ≤ y.spot.height)
    (hps : y.Splits p.classLayouts ps) :
    EachPart (fun z _ => z.spot.frame.size ≤ z.spot.height ∨ x.InInit p.classLayouts z) ps := by
  intro z code hz
  have hsound := (hy.pieces hE hps z code hz).phrase
  have hyz : y.Reaches p.classLayouts z := .piece .self hps hz
  obtain ⟨Q, Z⟩ := z
  cases hvalue : Z.isStmt with
  | true =>
    cases Z with
    | stmt s => exact .inl (Nat.le_of_eq hsound.1.height.symm)
    | stmts ss => exact .inl (Nat.le_of_eq hsound.1.height.symm)
    | ref | expr | exprs | call => cases hvalue
  | false =>
    obtain ⟨P, Y⟩ := y
    cases Y with
    | stmt s =>
      rcases hps.pattern.stmt_values _ code hz hvalue with ⟨hframe, hle⟩ |
        ⟨v, init, sp, rfl, hframe, hheight⟩ |
        ⟨cond, body, sp, start, inside, rfl, hbody, hheight⟩
      · exact .inl (hframe ▸ Nat.le_trans hsize hle)
      · exact .inr ⟨hvalue, _, v, init, sp, hxy, rfl, hyz, by rw [hframe]; rfl, by
          rw [hheight]; exact hsize⟩
      · obtain ⟨-, hrests, -, ht, -⟩ := hy
        cases ht with
        | loop hc hd ht =>
          refine .inl ?_
          rw [stmt_size ht hd hrests.fits hbody, hheight]
          exact hsize
    | stmts ss =>
      obtain ⟨hps, -⟩ := hps
      cases hps with
      | noStmts => cases hz
      | consStmts rest hfirst => simp at hz; grind [Phrase.isStmt]
    | ref | expr | exprs | call =>
      obtain ⟨-, hframe, hle⟩ := hps.pattern.values rfl _ code hz
      exact .inl (hframe ▸ Nat.le_trans hsize hle)

theorem Part.Reaches.frame (hE : E.IsIn p) {x y : Part} (hxy : x.Reaches p.classLayouts y)
    (hx : x.IsSound E) (hsize : x.spot.frame.size ≤ x.spot.height) :
    y.spot.frame.size ≤ y.spot.height ∨ x.InInit p.classLayouts y := by
  induction hxy with
  | self => exact .inl hsize
  | piece hxy hps hz ih =>
    rcases ih with hle | hinit
    · exact Part.IsSound.frame_pieces hE hxy (hxy.isSound hE hx) hle hps _ _ hz
    · exact .inr (hinit.pieces hps _ _ hz)

theorem Pattern.own_returns {X : Phrase} (hX : Pattern classes P X ps) (hP : P.Houses E)
    (hsound : X.IsSound E P) :
    EachOwn (fun _ i _ => i.falls = false → i.isJump = true ∨
      i = .ret E.method.results E.method.params.length)
      P.start ps := by
  cases hX with
  | retNone =>
    obtain ⟨-, -, ht, -⟩ := hsound
    cases ht with
    | retNone hvoid => simp [hP.params, Signature.results, hvoid]
  | ret =>
    obtain ⟨-, -, ht, -⟩ := hsound
    cases ht with
    | ret hvoid => simp [hP.params, Signature.results, hvoid]
  | shortCircuit | ifElse | loop =>
    simp
    exact .inl rfl
  | _ => exact EachOwn.of_not (by simp)

end Generate

end MiniJava
