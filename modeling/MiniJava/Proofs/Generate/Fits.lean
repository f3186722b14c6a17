import MiniJava.Proofs.Generate.Heights
import MiniJava.Proofs.Generate.Range
import MiniJava.Proofs.Object.Codec
/-!
The sizes of the numbers in generated code. Addresses, jump targets, static words and the words of
locals are counted by instructions, so they are small where the code is short; literals are small by
the grammar. Only the parameters of a method and the instance fields of a class take no instructions
of their own.
-/
namespace MiniJava

theorem Word.fits_ofNat {n : Nat} (h : n < 2 ^ 31) : (Word.ofNat n).Fits :=
  Word.within_ofNat (by omega) (by decide)

theorem Word.fits_ofBool (b : Bool) : (Word.ofBool b).Fits := Word.within_ofBool b (by decide)

theorem Word.fits_ofInt {n : Int} (hlow : -2 ^ 31 ≤ n)
    (hhigh : n < 2 ^ 31) : Word.Fits (Int64.ofInt n) := by
  rw [Word.Fits, Int64.toInt_ofInt_of_le (by omega) (by omega)]
  omega

theorem Frame.fits_paramOffset {f : Frame} {i : Nat} (hparams : f.params < 2 ^ 31)
    (hi : i < f.params) : Word.Fits (Int64.ofInt (f.paramOffset i)) := by
  apply Word.fits_ofInt
  · rw [Frame.paramOffset]
    omega
  · rw [Frame.paramOffset]
    omega

namespace Instr.Fits

theorem of (op : Op) (r : Reg) {n d : Word} (hn : n.Fits)
    (hd : d.Fits) : (Instr.of op n r d).Fits where
  op := Word.fits_ofNat (Nat.lt_of_le_of_lt List.idxOf_le_length (by decide))
  n := hn
  r := Word.fits_ofNat (Nat.lt_of_le_of_lt List.idxOf_le_length (by decide))
  d := hd

theorem prim (p : Prim) : (Instr.prim p).Fits :=
  of _ _ ⟨by decide, by
    decide⟩ (Word.fits_ofNat (Nat.lt_of_le_of_lt List.idxOf_le_length (by decide)))

end Instr.Fits

namespace Generate

/-- An item that becomes an instruction of 32 bit numbers, if the methods have addresses below
2³¹. -/
def Item.Fits (item : Item) : Prop :=
  ∀ address i, (∀ key a, address key = some a → a < 2 ^ 31) → item.link address = .ok i → i.Fits

namespace Item

theorem fits_instr {i : Instr} (h : i.Fits) : (instr i).Fits := by
  rintro address i' - ⟨⟩
  exact h

theorem zero_fits : (0 : Word).Fits := ⟨by decide, by decide⟩

@[simp] theorem fits_prim (p : Prim) : (prim p).Fits := fits_instr (.prim p)
@[simp] theorem fits_this : this.Fits := fits_instr (.of _ _ zero_fits zero_fits)

theorem fits_halt : halt.Fits := fits_instr (.of _ _ zero_fits zero_fits)

theorem fits_literal {v : Word} (h : v.Fits) : (literal v).Fits := fits_instr (.of _ _ zero_fits h)

theorem fits_reserve {n : Nat} (h : n < 2 ^ 31) : (reserve n).Fits :=
  fits_instr (.of _ _ zero_fits (Word.fits_ofNat h))

theorem fits_drop {n : Nat} (h : n < 2 ^ 31) : (drop n).Fits :=
  fits_instr (.of _ _ zero_fits (Word.fits_ofNat h))

theorem fits_loadField {p : FieldPlace} (h : p.offset < 2 ^ 31) : (loadField p).Fits :=
  fits_instr (.of _ _ zero_fits (Word.fits_ofNat h))

theorem fits_storeField {p : FieldPlace} (h : p.offset < 2 ^ 31) : (storeField p).Fits :=
  fits_instr (.of _ _ zero_fits (Word.fits_ofNat h))

theorem fits_loadVariable {o : Int} (h : Word.Fits (Int64.ofInt o)) : (loadVariable o).Fits :=
  fits_instr (.of _ _ zero_fits h)

theorem fits_storeVariable {o : Int} (h : Word.Fits (Int64.ofInt o)) : (storeVariable o).Fits :=
  fits_instr (.of _ _ zero_fits h)

theorem fits_jump {t : Nat} (h : t < 2 ^ 31) : (jump t).Fits :=
  fits_instr (.of _ _ zero_fits (Word.fits_ofNat h))

theorem fits_jumpIf {v : Word} {t : Nat} (hv : v.Fits) (h : t < 2 ^ 31) : (jumpIf v t).Fits :=
  fits_instr (.of _ _ hv (Word.fits_ofNat h))

theorem fits_ret {n k : Nat} (hn : n < 2 ^ 31) (hk : k < 2 ^ 31) : (ret n k).Fits :=
  fits_instr (.of _ _ (Word.fits_ofNat hn) (Word.fits_ofNat hk))

@[simp] theorem fits_call (key : MethodKey) : (call key).Fits := by
  intro address i haddress h
  simp only [link] at h
  split at h
  · rename_i a ha
    cases h
    exact .of _ _ zero_fits (Word.fits_ofNat (haddress key a ha))
  · cases h

@[simp] theorem fits_callOn (key : MethodKey) : (callOn key).Fits := by
  intro address i haddress h
  simp only [link] at h
  split at h
  · rename_i a ha
    cases h
    exact .of _ _ zero_fits (Word.fits_ofNat (haddress key a ha))
  · cases h

@[simp] theorem fits_create (kind : BlockKind) : (create kind).Fits := by
  intro address i _ h
  cases kind <;> cases h <;> exact .prim _

end Item

variable {classes : ClassLayouts}

/-- In code from `base` on, the frame of a part has at most one local for each instruction before
the part, and the one that the part initializes. -/
def Part.Pays (base : Nat) (x : Part) : Prop :=
  base + x.spot.frame.size ≤ Frame.linkSize + x.spot.start + (!x.phrase.isStmt).toNat

theorem Part.Pays.pieces {base : Nat} {x : Part} {ps : List Piece} (hx : x.Pays base)
    (hps : x.Splits classes ps) : EachPart (fun y _ => y.Pays base) ps := by
  obtain ⟨P, X⟩ := x
  cases hps.pattern with
  | ifElse test other hcode | loop test hcode | consStmts rest hcode =>
    have hsize := stmt_size_le hcode
    simp only [Part.Pays, eachPart_part, eachPart_item, eachPart_nil, and_true, Spot.on,
      Phrase.isStmt, Bool.not_true, Bool.not_false, Bool.toNat_true, Bool.toNat_false] at hx hsize ⊢
    omega
  | _ =>
    simp only [Part.Pays, eachPart_part, eachPart_item, eachPart_items, eachPart_nil, and_true,
      Spot.on, Phrase.isStmt, Bool.not_true, Bool.not_false, Bool.toNat_true, Bool.toNat_false,
      Frame.declare] at hx ⊢ <;> omega

theorem Part.Reaches.pays {base : Nat} {x y : Part} (hxy : x.Reaches classes y)
    (hx : x.Pays base) : y.Pays base := by
  induction hxy with
  | self => exact hx
  | piece _ hps hz ih => exact ih.pieces hps _ _ hz

/-- Objects have fewer than 2³¹ words, and static fields lie below 2³¹. -/
structure SmallClasses (classes : ClassLayouts) : Prop where
  size : ∀ {name l}, classes.find? name = some l → l.size < 2 ^ 31
  offset : ∀ {owner name place}, classes.field? owner name = some place → place.offset < 2 ^ 31

/-- The frame has fewer than 2³¹ parameters, and the names of a phrase stand for parameters and
locals that lie close to the local base. -/
structure Part.IsSmall (x : Part) : Prop where
  params : x.spot.frame.params < 2 ^ 31
  bareParam : ∀ i v, x.phrase.bareName? = some (.param i v) → i < x.spot.frame.params
  bareLocal : ∀ i v (o : Nat), x.phrase.bareName? = some (.localVar i v) →
    x.spot.frame.locals[i]? = some o → o < 2 ^ 31

theorem Pattern.own_fits (hclasses : SmallClasses classes) {P : Spot} {X : Phrase}
    {ps : List Piece} (hX : Pattern classes P X ps) (hsmall : (⟨P, X⟩ : Part).IsSmall)
    (hliterals : ∀ l ∈ X.literals, l.value < 2 ^ 31)
    (hend : P.start + (assembled ps).length < 2 ^ 31) :
    EachOwn (fun _ i _ => i.Fits) P.start ps := by
  obtain ⟨hparams, hparam, hlocal⟩ := hsmall
  cases hX with
  | field hplace | ownField hplace _ =>
    exact ⟨Item.fits_loadField (hclasses.offset hplace), trivial⟩
  | assignField hplace | assignOwnField hplace _ =>
    exact ⟨Item.fits_storeField (hclasses.offset hplace), trivial⟩
  | memberField hplace _ =>
    exact ⟨Item.fits_literal (Word.fits_ofNat (hclasses.offset hplace)), Item.fits_prim _, trivial⟩
  | assignMember object code hplace _ =>
    exact ⟨Item.fits_literal (Word.fits_ofNat (hclasses.offset hplace)), Item.fits_prim _, trivial⟩
  | param =>
    exact ⟨Item.fits_loadVariable (Frame.fits_paramOffset hparams (hparam _ _ rfl)), trivial⟩
  | assignParam =>
    exact ⟨Item.fits_storeVariable (Frame.fits_paramOffset hparams (hparam _ _ rfl)), trivial⟩
  | localVar ho =>
    have hlt := hlocal _ _ _ rfl ho
    exact ⟨Item.fits_loadVariable (Word.fits_ofInt (by omega) (by omega)), trivial⟩
  | assignLocal ho =>
    have hlt := hlocal _ _ _ rfl ho
    exact ⟨Item.fits_storeVariable (Word.fits_ofInt (by omega) (by omega)), trivial⟩
  | shortCircuit left right hop =>
    obtain ⟨b, rfl⟩ := strategy_decided hop
    simp only [assembled_part, assembled_item, assembled_nil, List.length_append, List.length_cons,
      List.length_nil] at hend
    exact ⟨Item.fits_jumpIf (Word.fits_ofBool b) (by omega), Item.fits_jump (by omega),
      Item.fits_literal (Word.fits_ofBool b), trivial⟩
  | literal => exact ⟨Item.fits_literal (Word.fits_ofNat (hliterals _ List.mem_cons_self)), trivial⟩
  | newObject hlayout =>
    exact ⟨Item.fits_literal ⟨by decide, by decide⟩,
      Item.fits_literal (Word.fits_ofNat (hclasses.size hlayout)),
      Item.fits_create _, trivial⟩
  | block hbody =>
    have hsize := stmts_size_le hbody
    simp only [assembled_part, List.length_append] at hend
    refine eachOwn_dropLocals.mpr fun _ => Item.fits_drop ?_
    omega
  | retNone => exact ⟨Item.fits_ret (by decide) hparams, trivial⟩
  | ret => exact ⟨Item.fits_ret (by decide) hparams, trivial⟩
  | call => exact eachOwn_dropResult.mpr fun _ => Item.fits_drop (by decide)
  | ifThen test code =>
    simp only [assembled_part, assembled_item, assembled_nil, List.length_append, List.length_cons,
      List.length_nil] at hend
    exact ⟨Item.fits_jumpIf Item.zero_fits (by omega), trivial⟩
  | ifElse test other hcode =>
    simp only [assembled_part, assembled_item, assembled_nil, List.length_append, List.length_cons,
      List.length_nil] at hend
    exact ⟨Item.fits_jumpIf Item.zero_fits (by omega), Item.fits_jump (by omega), trivial⟩
  | loop test hcode =>
    simp only [assembled_part, assembled_item, assembled_nil, List.length_append, List.length_cons,
      List.length_nil] at hend
    exact ⟨Item.fits_jump (by omega), Item.fits_jumpIf (Word.fits_ofBool true) (by omega), trivial⟩
  | _ => simp

theorem Part.IsSound.isSmall {E : Setting} {x : Part} (h : x.IsSound E)
    (hparams : E.method.params.length < 2 ^ 31)
    (hsize : x.spot.frame.size ≤ 2 ^ 31) : x.IsSmall where
  params := by rw [h.houses.params]; exact hparams
  bareParam i v hname := by
    rw [h.houses.params]
    exact (List.getElem?_eq_some_iff.mp (h.separates.bareParam i v hname)).1
  bareLocal i v o hname ho := by
    obtain ⟨o', ho', -, hlt⟩ := h.separates.locals _ (h.separates.bareLocal i v hname)
    cases ho.symm.trans ho'
    omega

end Generate

open Generate

/-- No method has so many parameters, and no class so many instance fields, that 32 bits cannot
count them. -/
structure Program.IsCounted (p : Program) : Prop where
  params : ∀ c ∈ p.classes, ∀ m ∈ c.methods, m.params.length < 2 ^ 31
  fields : ∀ c ∈ p.classes, c.fields.countP (!·.isStatic) < 2 ^ 31

instance (p : Program) : Decidable p.IsCounted :=
  decidable_of_iff ((∀ c ∈ p.classes, ∀ m ∈ c.methods, m.params.length < 2 ^ 31) ∧
    ∀ c ∈ p.classes, c.fields.countP (!·.isStatic) < 2 ^ 31) ⟨fun h => ⟨h.1, h.2⟩, fun h =>
    ⟨h.1, h.2⟩⟩

theorem ClassLayouts.exists_class {statics : Nat} {cs : List ClassDecl} {l : ClassLayout}
    (hl : l ∈ ClassLayouts.of statics cs) : ∃ c ∈ cs, l.size = c.fields.countP (!·.isStatic) := by
  induction cs generalizing statics with
  | nil => cases hl
  | cons c cs ih =>
    rcases List.mem_cons.mp hl with rfl | hl
    · exact ⟨c, List.mem_cons_self, rfl⟩
    · obtain ⟨c', hc', hsize⟩ := ih hl
      exact ⟨c', List.mem_cons_of_mem _ hc', hsize⟩

variable {p : Program} {entry : MethodKey} {d : Draft} {code : Code}

theorem Program.IsCounted.smallClasses (h : p.IsCounted) (hstatics : p.staticCount < 2 ^ 31) :
    SmallClasses p.classLayouts := by
  have hlibrary : ∀ c ∈ Library.classes, c.fields.countP (!·.isStatic) < 2 ^ 31 := by decide
  have hsize {l : ClassLayout} (hl : l ∈ p.classLayouts) : l.size < 2 ^ 31 := by
    obtain ⟨c, hc, hcount⟩ := ClassLayouts.exists_class hl
    rw [hcount]
    rcases List.mem_append.mp hc with hc | hc
    · exact h.fields c hc
    · exact hlibrary c hc
  refine ⟨fun hl => hsize (List.mem_of_find?_eq_some hl), fun {owner name place} hplace => ?_⟩
  obtain ⟨l, hl, hlookup⟩ := Option.bind_eq_some_iff.mp hplace
  have hl := List.mem_of_find?_eq_some hl
  have hfield := Resolve.mem_of_lookup hlookup
  cases hstatic : place.isStatic with
  | false =>
    obtain ⟨c, -, hnumbers⟩ := Program.exists_numbers hl
    exact Nat.lt_trans (hnumbers.offset_lt hfield hstatic) (hsize hl)
  | true =>
    have hoffset : place.offset ∈ l.offsets true :=
      List.mem_map.mpr ⟨(name, place), List.mem_filter.mpr ⟨hfield, by simp [hstatic]⟩, rfl⟩
    have hrange : place.offset ∈ p.classLayouts.flatMap (·.offsets true) :=
      List.mem_flatMap.mpr ⟨l, hl, hoffset⟩
    rw [Program.classLayouts, ClassLayouts.static_offsets, List.mem_range'_1] at hrange
    have hcount : place.offset < 0 + p.staticCount := hrange.2
    omega

theorem Program.fits_body (hp : p.Accepted) (hclasses : SmallClasses p.classLayouts)
    (hliterals : ∀ l ∈ p.literals, l.value < 2 ^ 31) {x : String × Method} (hx : x ∈ p.methods)
    (hparams : x.2.params.length < 2 ^ 31) {start h : Nat} {body : List Item}
    (hbody : (bodyPart start x.2).made p.classLayouts = .ok (body, h)) (hstart : 4 ≤ start)
    (hend : start + body.length < 2 ^ 31) {j : Nat} {item : Item}
    (hj : body[j]? = some item) : item.Fits := by
  obtain ⟨y, ps, height, hreach, hps, hown⟩ := Part.exists_origin _ hbody hj
  obtain ⟨code, h', hy, hlow, hhigh⟩ := hreach.bounds hbody
  have hsound := hreach.isSound (Program.isIn_setting hp hx) (Program.isSound_body hp hx start)
  have hpays : y.Pays start := hreach.pays (Nat.le_of_eq (Nat.add_comm _ _))
  have hslack := Bool.toNat_le (!y.phrase.isStmt)
  simp only [Part.Pays, Frame.linkSize] at hpays
  simp only [bodyPart] at hlow hhigh
  have hsmall := hsound.isSmall hparams (by omega)
  refine (hps.pattern.own_fits hclasses hsmall (fun l hl => ?_) ?_).of_mem hown
  · exact hliterals l (Program.mem_literals hx (hreach.literals_subset hl))
  · rw [hps.assembled hy]
    omega

/-- Every number in the code of a program fits, if the code itself and what it does not count are
small. -/
theorem Program.fits_code (hp : p.Accepted) (hliterals : ∀ l ∈ p.literals, l.value < 2 ^ 31)
    (hcounted : p.IsCounted) (hd : p.draft entry = .ok d) (hlink : d.link = .ok code)
    (hsize : code.size < 2 ^ 31) {a : Nat} {i : Instr} (hi : code[a]? = some i) : i.Fits := by
  rw [Draft.size_eq hlink] at hsize
  have hranges := Program.consecutive hd
  have haddress : ∀ key a, d.address key = some a → a < 2 ^ 31 := by
    intro key a ha
    obtain ⟨mc, hmc, rfl⟩ := Option.map_eq_some_iff.mp ha
    have := hranges.le_stop.2 mc (List.mem_of_find?_eq_some hmc)
    omega
  obtain ⟨item, hitem, hlinked⟩ := Draft.exists_item hlink hi
  refine (?_ : item.Fits) _ _ haddress hlinked
  rcases Program.item_cases hd hitem with hpre | ⟨x, mc, j, hx, hj, -⟩
  · have hmem := List.mem_of_getElem? hpre
    simp only [preamble, List.mem_append, List.mem_replicate, List.mem_cons, List.not_mem_nil,
      or_false] at hmem
    rcases hmem with ⟨-, rfl⟩ | rfl | rfl | rfl | rfl
    · exact Item.fits_reserve (by decide)
    · exact Item.fits_literal Item.zero_fits
    · exact Item.fits_create _
    · exact Item.fits_call entry
    · exact Item.fits_halt
  · have hstart := hranges.start_le mc hx.mem.2
    have hstop := hranges.le_stop.2 mc hx.mem.2
    have hparams : x.2.params.length < 2 ^ 31 := by
      obtain ⟨c, hc, hxc⟩ := List.mem_flatMap.mp hx.mem.1
      obtain ⟨m, hm, rfl⟩ := List.mem_map.mp hxc
      exact hcounted.params c hc m hm
    obtain ⟨body, frame, hbody, hmc⟩ := methodCode_eq_ok (hx.made hd)
    have hitems : mc.items = body ++ closing x.2 := by rw [hmc]
    rw [hitems, List.length_append] at hstop
    rw [hitems] at hj
    rcases Nat.lt_or_ge j body.length with hlt | hge
    · rw [List.getElem?_append_left hlt] at hj
      have hmade : (bodyPart mc.address x.2).made p.classLayouts = .ok (body, frame.size) :=
        made_stmts.mpr ⟨frame, hbody, rfl⟩
      exact Program.fits_body hp (hcounted.smallClasses (by omega)) hliterals hx.mem.1 hparams hmade
        (by omega)
        (by omega) hj
    · rw [List.getElem?_append_right hge] at hj
      have hmem := List.mem_of_getElem? hj
      unfold closing at hmem
      split at hmem
      · cases hmem
      · cases List.mem_singleton.mp hmem
        exact Item.fits_ret (by decide) hparams

end MiniJava
