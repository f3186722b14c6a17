import MiniJava.Proofs.Listing.Lines
import MiniJava.Proofs.Sequence
/-!
Listings that are read again. A listing leaves out the words that an operation does not use and
names a primitive by its number, so an instruction comes back from its line if the words left out
are 0 and the primitive has a name. Code that was read from a text has the first property and may
lack the second.
-/
namespace MiniJava

/-- The operations whose count is listed. -/
def Op.showsCount : Op → Bool
  | ret | jumpif => true
  | _ => false

/-- The operations whose register is listed. -/
def Op.showsReg : Op → Bool
  | load | loada | store | call | calli | jump | jumpif => true
  | _ => false

/-- The operations whose displacement is listed. -/
def Op.showsDisplacement : Op → Bool
  | loadi | storei | jumpi | halt => false
  | _ => true

/-- The operation and the register have names, and every word that is not listed is 0. -/
def Instr.Shown (i : Instr) : Prop :=
  ∃ op ∈ Op.ofNumber? i.op, ∃ r ∈ Reg.ofNumber? i.r,
    (op.showsCount = false → i.n = 0) ∧ (op.showsReg = false → r = .zr) ∧
      (op.showsDisplacement = false → i.d = 0)

instance (i : Instr) : Decidable i.Shown := inferInstanceAs (Decidable (∃ _ ∈ _, ∃ _ ∈ _, _))

/-- A call relative to the primitives calls one of them. -/
def Instr.NamesPrim (i : Instr) : Prop :=
  i.op = Op.call.number → i.r = Reg.pb.number → 0 ≤ i.d.toInt ∧ i.d.toInt ≤ 35

instance (i : Instr) : Decidable i.NamesPrim := inferInstanceAs (Decidable (_ → _ → _))

/-- Instructions that a listing shows in full. -/
def Instr.Canonical (i : Instr) : Prop := i.Shown ∧ i.NamesPrim

instance (i : Instr) : Decidable i.Canonical := inferInstanceAs (Decidable (_ ∧ _))

theorem Instr.shown_of_iff {op : Op} {n : Word} {r : Reg} {d : Word} :
    (Instr.of op n r d).Shown ↔
      (op.showsCount = false → n = 0) ∧ (op.showsReg = false → r = .zr) ∧
      (op.showsDisplacement = false → d = 0) := by
  simp [Shown, Instr.of, Op.ofNumber?_number, Reg.ofNumber?_number]

theorem Instr.Shown.exists_of {i : Instr} (h : i.Shown) : ∃ op n r d, i = .of op n r d := by
  obtain ⟨op, hop, r, hr, -⟩ := h
  refine ⟨op, i.n, r, i.d, ?_⟩
  rw [Instr.of, ← Op.number_of_ofNumber? hop, ← Reg.number_of_ofNumber? hr]

theorem Prim.exists_ofNumber?_iff {d : Word} :
    (∃ p, ofNumber? d = some p) ↔ 0 ≤ d.toInt ∧ d.toInt ≤ 35 := by
  have hlength : all.length = 36 := rfl
  simp only [ofNumber?, numbered?, Option.map_eq_some_iff, Word.index?, hlength]
  constructor
  · rintro ⟨p, j, hj, -⟩
    split at hj
    · omega
    · cases hj
  · intro h
    refine ⟨_, _, dif_pos ⟨h.1, ?_⟩, rfl⟩
    omega

namespace Listing

/-! ### One line -/

theorem toText_ofChars {cs : List Char} (hcs : cs.all isSolid = true) :
    (Bytes.ofChars cs).toText = String.ofList cs := by
  rw [Bytes.toText, toChars_ofChars_solid hcs]

/-- A shown instruction is what its operation makes of its operand, if its primitive has a name. -/
theorem instruction_operandWords {op : Op} {n : Word} {r : Reg} {d : Word}
    (hshown : (Instr.of op n r d).Shown) (hprim : (Instr.of op n r d).NamesPrim) :
    ∃ o, Operand.ofWords? ((operandWords op n r d).map Bytes.ofChars) = some o ∧
      instruction op o = .ok (.of op n r d, none) := by
  rw [Instr.shown_of_iff] at hshown
  obtain ⟨hn, hr, hd⟩ := hshown
  have hbased (hop : op.showsCount = false) (o : Operand)
      (ho : o = ⟨none, some (.number d), some r.name⟩) :
      uncountedInstr op o = .ok (.of op n r d, none) := by
    rw [ho, hn hop]
    simp [uncountedInstr, basedInstr, register, Reg.ofName?_name, pure, Except.pure]
  have hword : Operand.ofWords? [Bytes.ofChars (basedWord r d)] = some ⟨none, some (.number d),
      some r.name⟩ := by
    rw [Operand.ofWords?, toChars_ofChars_solid (isSolid_basedWord r d), single?_basedWord]
  have hnumber : Operand.ofWords? [Bytes.ofChars (numeral d)] = some ⟨none, some (.number d),
      none⟩ := by
    rw [Operand.ofWords?, toChars_ofChars_solid (isSolid_numeral d), single?_numeral]
  cases op with
  | loadi | storei | jumpi | halt =>
    cases hn rfl
    cases hr rfl
    cases hd rfl
    exact ⟨_, rfl, rfl⟩
  | loadl | push | pop =>
    cases hn rfl
    cases hr rfl
    exact ⟨_, hnumber, rfl⟩
  | ret =>
    cases hr rfl
    refine ⟨⟨some n, some (.number d), none⟩, ?_, rfl⟩
    simp only [operandWords, List.map_cons, List.map_nil, Operand.ofWords?,
      toChars_ofChars_solid (isSolid_countWord n), count?_countWord,
      toChars_ofChars_solid (isSolid_numeral d),
      based?_numeral]
  | jumpif =>
    refine ⟨⟨some n, some (.number d), some r.name⟩, ?_, ?_⟩
    · simp only [operandWords, List.map_cons, List.map_nil, Operand.ofWords?,
        toChars_ofChars_solid (isSolid_countWord n), count?_countWord,
        toChars_ofChars_solid (isSolid_basedWord r d),
        based?_basedWord]
    · simp [instruction, basedInstr, register, Reg.ofName?_name, pure, Except.pure]
  | call =>
    by_cases hpb : r = .pb
    · -- The word is the primitive's name, which no other operand looks like.
      subst hpb
      obtain ⟨p, hp⟩ : ∃ p, Prim.ofNumber? d = some p :=
        Prim.exists_ofNumber?_iff.mpr (hprim rfl rfl)
      have hname : Prim.nameOf d = p.name := by rw [Prim.nameOf, hp]
      refine ⟨⟨none, some (.symbol p.name), none⟩, ?_, ?_⟩
      · rw [operandWords, if_pos rfl, hname, List.map_cons, List.map_nil, Operand.ofWords?,
          toChars_ofChars_solid (isSolid_primName p).1, single?_primName]
      · cases hn rfl
        simp only [instruction, Prim.ofName?_name]
        rw [Instr.prim, ← Prim.number_of_ofNumber? hp]
    · refine ⟨⟨none, some (.number d), some r.name⟩, ?_, hbased rfl _ rfl⟩
      rw [operandWords, if_neg hpb]
      exact hword
  | load | loada | store =>
    refine ⟨_, hword, ?_⟩
    cases hn rfl
    simp [instruction, basedInstr, register, Reg.ofName?_name, pure, Except.pure]
  | calli | jump => exact ⟨_, hword, hbased rfl _ rfl⟩

theorem ofName?_opName (op : Op) : Op.ofName? (Bytes.ofChars op.name.toList).toText = some op := by
  rw [toText_ofChars (isSolid_opName op), String.ofList_toList, Op.ofName?_name]

theorem ofName?_digits (k : Nat) : Op.ofName? (Bytes.ofChars (Decimal.digits k)).toText = none := by
  obtain ⟨c, cs, hcs, hc⟩ := Decimal.exists_digits k
  rw [toText_ofChars (List.all_eq_true.mpr fun c hc =>
    isSolid_of_isDigit (List.all_eq_true.mp (Decimal.all_isDigit_digits k) c hc)), hcs, Op.ofName?,
    List.find?_eq_none]
  intro op _ hname
  have hlist : op.name.toList = c :: cs := by rw [beq_iff_eq.mp hname, String.toList_ofList]
  have hhead : Decimal.isDigit (op.name.toList.headD 'A') = false := by cases op <;> decide
  rw [hlist, List.headD_cons, hc] at hhead
  cases hhead

namespace Assembly

variable (a : Assembly)

/-- The assembly with one more instruction that refers to no label. -/
def push (i : Instr) : Assembly := { a with entries := a.entries.push ⟨i, none, a.line⟩ }

theorem addInstr_shown {op : Op} {n : Word} {r : Reg} {d : Word}
    (hshown : (Instr.of op n r d).Shown) (hprim : (Instr.of op n r d).NamesPrim) :
    a.addInstr (Bytes.ofChars op.name.toList :: (operandWords op n r d).map Bytes.ofChars) =
      .ok (a.push (.of op n r d)) := by
  obtain ⟨o, ho, hinstr⟩ := instruction_operandWords hshown hprim
  simp only [addInstr, ofName?_opName, ho, hinstr]
  rfl

theorem addInstr_unnamed {n d : Word} (hd : Prim.ofNumber? d = none) (b : Assembly) :
    a.addInstr (Bytes.ofChars Op.call.name.toList :: (operandWords .call n .pb d).map
      Bytes.ofChars) ≠ .ok b := by
  have hword : Operand.ofWords? ((operandWords .call n .pb d).map Bytes.ofChars) = none := by
    rw [operandWords, if_pos rfl, List.map_cons, List.map_nil, Operand.ofWords?,
      toChars_ofChars_solid (isSolid_nameOf d).1, single?_nameOf_none hd]
  intro h
  simp only [addInstr, ofName?_opName, hword] at h
  cases h

end Assembly

/-! ### Lines -/

theorem of_mem_row {k : Nat} {op : Op} {n : Word} {r : Reg} {d : Word} {c : Char}
    (hc : c ∈ row k (.of op n r d)) : c = ' ' ∨ isSolid c = true := by
  have hspell (pad : Nat) {ws : List (List Char)} (hws : ∀ w ∈ ws, w ≠ [] ∧
      w.all isSolid = true) {c : Char}
      (hc : c ∈ spell pad ws) : c = ' ' ∨ isSolid c = true := by
    induction ws generalizing pad with
    | nil => cases hc
    | cons w ws ih =>
      obtain ⟨⟨-, hsolid⟩, hws⟩ := List.forall_mem_cons.mp hws
      rw [spell, List.mem_append, List.mem_append] at hc
      rcases hc with hpad | hw | hrest
      · exact .inl (List.eq_of_mem_replicate hpad)
      · exact .inr (List.all_eq_true.mp hsolid c hw)
      · exact ih 1 hws hrest
  rw [row, addressColumn, String.toList_ofList, List.mem_append, List.mem_append, List.mem_cons,
    List.mem_cons, text_of, List.mem_append] at hc
  rcases hc with (hpad | hdigit) | rfl | rfl | hname | hwords
  · exact .inl (List.eq_of_mem_replicate hpad)
  · exact .inr (isSolid_of_isDigit (List.all_eq_true.mp (Decimal.all_isDigit_digits k) c hdigit))
  · exact .inl rfl
  · exact .inl rfl
  · exact .inr (List.all_eq_true.mp (isSolid_opName op) c hname)
  · exact hspell _ (fun w hw => solid_operandWords hw) hwords

theorem toNat_le_of_mem_row {k : Nat} {op : Op} {n : Word} {r : Reg} {d : Word} {c : Char}
    (hc : c ∈ row k (.of op n r d)) : c.toNat ≤ 127 := by
  rcases of_mem_row hc with rfl | hsolid
  · decide
  · have hbounds := isSolid_iff.mp hsolid
    omega

theorem not_mem_row {k : Nat} {op : Op} {n : Word} {r : Reg} {d : Word} {c : Char}
    (hc : c.toNat ≤ 127) (hblank : c ≠ ' ') (hsolid : isSolid c = false) :
    c.toUInt8 ∉ Bytes.ofChars (row k (.of op n r d)) := by
  intro hmem
  obtain ⟨c', hc', heq⟩ := List.mem_map.mp hmem
  cases (toUInt8_inj (toNat_le_of_mem_row hc') hc).mp heq
  rcases of_mem_row hc' with rfl | hsolid'
  · exact hblank rfl
  · rw [hsolid] at hsolid'
    cases hsolid'

theorem withoutComment_eq_self {bs : Bytes} (h : '/'.toUInt8 ∉ bs) : withoutComment bs = bs := by
  induction bs with
  | nil => rfl
  | cons b bs ih =>
    rw [List.mem_cons, not_or] at h
    rw [withoutComment, if_neg fun hslash => h.1 hslash.1.symm, ih h.2]

theorem splitLines_append {l : Bytes} (h : '\n'.toUInt8 ∉ l) (rest : Bytes) :
    splitLines (l ++ '\n'.toUInt8 :: rest) = l :: splitLines rest := by
  induction l with
  | nil => rw [List.nil_append, splitLines, if_pos rfl]
  | cons b l ih =>
    rw [List.mem_cons, not_or] at h
    rw [List.cons_append, splitLines, if_neg (Ne.symm h.1), ih h.2]

theorem splitLines_ne_nil (bs : Bytes) : splitLines bs ≠ [] := by
  cases bs with
  | nil => exact List.cons_ne_nil _ _
  | cons b bs =>
    rw [splitLines]
    split
    · exact List.cons_ne_nil _ _
    · split <;> exact List.cons_ne_nil _ _

theorem splitLines_linesFrom {i : Instr} (hi : i.Shown) (k : Nat) (is : List Instr) :
    splitLines (linesFrom k (i :: is)) = Bytes.ofChars (row k i) ::
      splitLines (linesFrom (k + 1) is) := by
  obtain ⟨op, n, r, d, rfl⟩ := hi.exists_of
  have hline : Bytes.ofString (line k (.of op n r d)) = Bytes.ofChars (row k (.of op n r d)) ++
      ['\n'.toUInt8] := by
    have hascii : ∀ c ∈ (line k (.of op n r d)).toList, c.toNat ≤ 127 := by
      intro c hc
      rw [toList_line, List.mem_append, List.mem_singleton] at hc
      rcases hc with hrow | rfl
      · exact toNat_le_of_mem_row hrow
      · decide
    rw [Bytes.ofString_eq_ofChars hascii, toList_line, Bytes.ofChars_append]
    rfl
  rw [linesFrom, hline, List.append_assoc, List.singleton_append,
    splitLines_append (not_mem_row (by decide) (by decide) (by decide))]

namespace Assembly

variable (a : Assembly)

theorem addLines_of_ok {a b : Assembly} {l : Bytes} (h : a.addLine l = .ok b) {ls : List Bytes}
    (hls : ls ≠ []) :
    addLines none a (l :: ls) = addLines none { b with line := b.line + 1 } ls := by
  cases ls with
  | nil => exact absurd rfl hls
  | cons l' ls => simp only [addLines, h]

theorem addLines_eq_none {a c : Assembly} {l : Bytes} {ls : List Bytes} (hls : ls ≠ [])
    (h : addLines none a (l :: ls) = (none, c)) :
    ∃ b, a.addLine l = .ok b ∧ addLines none { b with line := b.line + 1 } ls = (none, c) := by
  cases hb : a.addLine l with
  | ok b => exact ⟨b, rfl, (addLines_of_ok hb hls).symm.trans h⟩
  | error fault =>
    cases ls with
    | nil => exact absurd rfl hls
    | cons l' ls =>
      simp only [addLines, hb] at h
      cases h

theorem addLine_row (k : Nat) (op : Op) (n : Word) (r : Reg) (d : Word) :
    a.addLine (Bytes.ofChars (row k (.of op n r d))) =
      a.addNumbered (Bytes.ofChars (Decimal.digits k) :: Bytes.ofChars op.name.toList ::
        (operandWords op n r d).map Bytes.ofChars) := by
  obtain ⟨c, cs, hcs, hc⟩ := Decimal.exists_digits k
  have hhead : (Bytes.ofChars (Decimal.digits k)).head? ≠ some '('.toUInt8 := by
    intro heq
    rw [hcs, Bytes.ofChars_cons, List.head?_cons, Option.some_inj] at heq
    have hascii : c.toNat ≤ 127 := by
      have hbounds := isSolid_iff.mp (isSolid_of_isDigit hc)
      omega
    exact Decimal.ne_of_isDigit hc (by decide) ((toUInt8_inj hascii (by decide)).mp heq)
  rw [addLine, withoutComment_eq_self (not_mem_row (by decide) (by decide) (by decide)), fields_row,
    addWords, if_neg hhead]

theorem signed?_address (k : Nat) :
    Decimal.signed? (Bytes.ofChars (Decimal.digits k)).toChars = some (k : Int) := by
  rw [toChars_ofChars_solid (List.all_eq_true.mpr fun c hc =>
    isSolid_of_isDigit (List.all_eq_true.mp (Decimal.all_isDigit_digits k) c hc)),
    Decimal.signed?_digits]

/-- An address in range is compared with the number of instructions so far. -/
theorem addNumbered_digits {k : Nat} (hk : k < 2 ^ 63) (ws : List Bytes) :
    a.addNumbered (Bytes.ofChars (Decimal.digits k) :: ws) =
      if k = a.here then a.addInstr ws else .error (.wrongAddress (Word.ofNat k) a.here) := by
  have hgiven : Word.ofInt? (k : Int) = some (Word.ofNat k) := by
    rw [← Word.toInt_ofNat hk, Word.ofInt?_toInt]
  rw [addNumbered, signed?_address, Option.bind_some, hgiven]
  simp only [Word.toInt_ofNat hk, Int.natCast_inj]

/-- A number beyond the words is no address, and no operation either. -/
theorem addNumbered_far {k : Nat} (hk : 2 ^ 63 ≤ k) (ws : List Bytes) (b : Assembly) :
    a.addNumbered (Bytes.ofChars (Decimal.digits k) :: ws) ≠ .ok b := by
  have hgiven : Word.ofInt? (k : Int) = none := if_neg (by omega)
  intro h
  rw [addNumbered, signed?_address, Option.bind_some, hgiven] at h
  simp only [addInstr, ofName?_digits] at h
  cases h

theorem addLine_listed {i : Instr} (hi : i.Canonical) (ha : a.here < 2 ^ 63) :
    a.addLine (Bytes.ofChars (row a.here i)) = .ok (a.push i) := by
  obtain ⟨op, n, r, d, rfl⟩ := hi.1.exists_of
  rw [addLine_row, addNumbered_digits a ha, if_pos rfl, addInstr_shown a hi.1 hi.2]

/-- What can be read of a listing: lines whose address is a word and whose primitive has a name. -/
theorem of_addLine_listed {b : Assembly} {i : Instr} (hi : i.Shown) {k : Nat}
    (h : a.addLine (Bytes.ofChars (row k i)) = .ok b) : k < 2 ^ 63 ∧ i.NamesPrim := by
  obtain ⟨op, n, r, d, rfl⟩ := hi.exists_of
  rw [addLine_row] at h
  by_cases hk : k < 2 ^ 63
  · refine ⟨hk, fun hop hr => ?_⟩
    rw [addNumbered_digits a hk] at h
    split at h
    · rw [← Prim.exists_ofNumber?_iff, ← Option.isSome_iff_exists, ← Option.ne_none_iff_isSome]
      intro hnone
      cases Op.number_inj.mp hop
      cases Reg.number_inj.mp hr
      exact addInstr_unnamed a hnone b h
    · cases h
  · exact absurd h (addNumbered_far a (Nat.le_of_not_lt hk) _ b)

/-! ### Whole listings -/

/-- The instructions read so far, of which none refers to a label. -/
structure Holds (is : List Instr) : Prop where
  instrs : a.entries.toList.map Entry.instr = is
  unlabelled : ∀ e ∈ a.entries.toList, e.label = none

variable {a}

theorem Holds.here_eq {is : List Instr} (h : a.Holds is) : a.here = is.length := by
  rw [here, ← h.instrs, List.length_map, Array.length_toList]

theorem Holds.push {is : List Instr} (h : a.Holds is)
    (i : Instr) : (a.push i).Holds (is ++ [i]) := by
  constructor
  · rw [Assembly.push, Array.toList_push, List.map_append, h.instrs]
    rfl
  · intro e he
    rw [Assembly.push, Array.toList_push, List.mem_append, List.mem_singleton] at he
    rcases he with hold | rfl
    · exact h.unlabelled e hold
    · rfl

theorem Holds.code_eq {is : List Instr} (h : a.Holds is) : a.code = .ok is.toArray := by
  have hresolve (es : List Entry) (hes : ∀ e ∈ es, e.label = none) :
      es.mapM (resolve a.labels) = .ok (es.map Entry.instr) := by
    induction es with
    | nil => rfl
    | cons e es ih =>
      obtain ⟨hlabel, hes⟩ := List.forall_mem_cons.mp hes
      simp only [List.mapM_cons, resolve, hlabel, ih hes]
      rfl
  rw [code, hresolve _ h.unlabelled, h.instrs]
  rfl

/-- A listing of canonical instructions adds them to those read before. -/
theorem Holds.addLines_linesFrom {is js : List Instr} (his : ∀ i ∈ is, i.Canonical)
    (h : a.Holds js) (hlength : js.length + is.length ≤ 2 ^ 63) :
    ∃ b : Assembly, addLines none a (splitLines (linesFrom js.length is)) = (none, b) ∧
      b.Holds (js ++ is) := by
  induction is generalizing a js with
  | nil =>
    refine ⟨a, ?_, by rwa [List.append_nil]⟩
    have hempty : a.addLine [] = .ok a := by
      rw [addLine, withoutComment, Blank.fields_nil]
      rfl
    simp only [linesFrom, splitLines, addLines, hempty]
  | cons i is ih =>
    obtain ⟨hi, his⟩ := List.forall_mem_cons.mp his
    rw [List.length_cons] at hlength
    have hhere : a.here < 2 ^ 63 := by
      rw [h.here_eq]
      omega
    have hline := a.addLine_listed hi hhere
    rw [h.here_eq] at hline
    have hpush : Holds { a.push i with line := (a.push i).line + 1 } (js ++ [i]) :=
      ⟨(h.push i).instrs, (h.push i).unlabelled⟩
    obtain ⟨b, hb, hholds⟩ :=
      ih his hpush (by rw [List.length_append, List.length_singleton]; omega)
    rw [List.length_append, List.length_singleton] at hb
    rw [List.append_assoc, List.singleton_append] at hholds
    refine ⟨b, ?_, hholds⟩
    rw [splitLines_linesFrom hi.1, addLines_of_ok hline (splitLines_ne_nil _), hb]

theorem of_addLines_linesFrom {b : Assembly} {is : List Instr} (his : ∀ i ∈ is, i.Shown) {k : Nat}
    (hk : k ≤ 2 ^ 63) (h : addLines none a (splitLines (linesFrom k is)) = (none, b)) :
    k + is.length ≤ 2 ^ 63 ∧ ∀ i ∈ is, i.NamesPrim := by
  induction is generalizing a k with
  | nil => exact ⟨hk, fun i hi => absurd hi List.not_mem_nil⟩
  | cons i is ih =>
    obtain ⟨hi, his⟩ := List.forall_mem_cons.mp his
    rw [splitLines_linesFrom hi] at h
    obtain ⟨c, hline, hrest⟩ := addLines_eq_none (splitLines_ne_nil _) h
    obtain ⟨hlt, hprim⟩ := a.of_addLine_listed hi hline
    obtain ⟨hlength, hprims⟩ := ih his hlt hrest
    refine ⟨?_, List.forall_mem_cons.mpr ⟨hprim, hprims⟩⟩
    rw [List.length_cons]
    omega

/-- A listing of shown instructions is read again if there is a word for each address and each
primitive has a name. -/
theorem assemble_print_iff {code : Code} (hshown : ∀ i ∈ code, i.Shown) :
    assemble (print code) = .ok code ↔ code.size ≤ 2 ^ 63 ∧ ∀ i ∈ code, i.NamesPrim := by
  have hlist {P : Instr → Prop} : (∀ i ∈ code.toList, P i) ↔ ∀ i ∈ code, P i := by
    simp only [Array.mem_toList_iff]
  rw [← hlist] at hshown
  rw [← Array.length_toList, ← hlist]
  constructor
  · intro h
    rw [assemble, read] at h
    split at h
    · cases h
    · rename_i hlines
      have hread := of_addLines_linesFrom hshown (Nat.zero_le _) hlines
      rwa [Nat.zero_add] at hread
  · rintro ⟨hlength, hprims⟩
    have hstart : Holds {} [] := ⟨rfl, fun e he => absurd he List.not_mem_nil⟩
    obtain ⟨b, hb, hholds⟩ := hstart.addLines_linesFrom (fun i hi => ⟨hshown i hi, hprims i hi⟩)
      (by rwa [List.length_nil, Nat.zero_add])
    rw [List.length_nil] at hb
    rw [assemble, read, print, hb]
    exact hholds.code_eq

/-- A listing of canonical instructions is read back as it was. An address is a word, so there are
at most `2 ^ 63` of them: no code store is longer. -/
theorem canonical_rereads {code : Code} (hcode : ∀ i ∈ code, i.Canonical) :
    assemble (print code) = .ok code ↔ code.size ≤ 2 ^ 63 := by
  rw [assemble_print_iff fun i hi => (hcode i hi).1]
  exact and_iff_left fun i hi => (hcode i hi).2

/-- The least and the greatest word, every form of operand and a primitive. -/
def extremes : Code :=
  #[.of .loadl 0 .zr Int64.minValue, .of .jumpif Int64.maxValue .cp Int64.minValue,
    .of .ret (-1) .zr 7,
    .of .call 0 .ob 35, .prim .fieldupd, .of .storei 0 .zr 0]

theorem extremes_rereads :
    (∀ i ∈ extremes, i.Canonical) ∧
      (assemble (print extremes) = .ok extremes ↔ extremes.size ≤ 2 ^ 63) :=
  ⟨by decide, canonical_rereads (by decide)⟩

/-! ### Code that was read -/

/-- Whatever address its label has, the instruction is shown. -/
def EntryShown (e : Entry) : Prop :=
  e.instr.Shown ∧ ∀ name target, e.label = some name → { e.instr with d := target }.Shown

theorem entryShown_unlabelled {i : Instr} (h : i.Shown) (line : Nat) : EntryShown ⟨i, none, line⟩ :=
  ⟨h, fun name _ hlabel => absurd hlabel (Option.some_ne_none name).symm⟩

section Operations

variable {op : Op} {o : Operand} {i : Instr} {label : Option String}

theorem basedInstr_shown (hreg : op.showsReg = true) (hdisplacement : op.showsDisplacement = true)
    {n : Word} (hn : op.showsCount = false → n = 0) (h : basedInstr op n o = .ok (i, label))
    (line : Nat) : EntryShown ⟨i, label, line⟩ := by
  have hof (r : Reg) (d : Word) : (Instr.of op n r d).Shown := by
    rw [Instr.shown_of_iff, hreg, hdisplacement]
    exact ⟨hn, fun h => absurd h.symm Bool.false_ne_true, fun h => absurd h.symm Bool.false_ne_true⟩
  rw [basedInstr] at h
  split at h
  · cases h
  · obtain ⟨r, -, h⟩ := Except.bind_eq_ok.mp h
    split at h
    · cases h
      exact entryShown_unlabelled (hof r _) line
    · cases h
      exact ⟨hof r 0, fun name target _ => hof r target⟩

theorem uncountedInstr_shown (hreg : op.showsReg = true)
    (hdisplacement : op.showsDisplacement = true) (h : uncountedInstr op o = .ok (i, label))
    (line : Nat) : EntryShown ⟨i, label, line⟩ := by
  rw [uncountedInstr] at h
  split at h
  · cases h
  · exact basedInstr_shown hreg hdisplacement (fun _ => rfl) h line

theorem instruction_shown (h : instruction op o = .ok (i, label))
    (line : Nat) : EntryShown ⟨i, label, line⟩ := by
  cases op with
  | loadi | storei | jumpi | halt =>
    simp only [instruction] at h
    split at h
    · cases h
    · cases h
      exact entryShown_unlabelled (by decide) line
  | loadl | push | pop | ret =>
    simp only [instruction] at h
    split at h
    · cases h
      refine entryShown_unlabelled (Instr.shown_of_iff.mpr ?_) line
      simp [Op.showsCount, Op.showsDisplacement]
    · cases h
  | load | loada | store =>
    simp only [instruction] at h
    split at h
    · exact basedInstr_shown rfl rfl (fun _ => rfl) h line
    · cases h
  | jumpif =>
    simp only [instruction] at h
    split at h
    · exact basedInstr_shown rfl rfl (fun hcount => Bool.noConfusion hcount) h line
    · cases h
  | call =>
    simp only [instruction] at h
    split at h
    · split at h
      · cases h
        refine entryShown_unlabelled (Instr.shown_of_iff.mpr ?_) line
        simp [Op.showsReg, Op.showsDisplacement]
      · exact uncountedInstr_shown rfl rfl h line
    · exact uncountedInstr_shown rfl rfl h line
  | calli | jump => exact uncountedInstr_shown rfl rfl h line

end Operations

/-- All that was read is shown. -/
def AllShown (a : Assembly) : Prop := ∀ e ∈ a.entries.toList, EntryShown e

theorem AllShown.addInstr {b : Assembly} (ha : AllShown a) {ws : List Bytes}
    (h : a.addInstr ws = .ok b) : AllShown b := by
  cases ws with
  | nil => cases h
  | cons w ws =>
    rw [Assembly.addInstr] at h
    split at h
    · cases h
    · split at h
      · cases h
      · obtain ⟨⟨i, label⟩, hinstr, hpush⟩ := Except.bind_eq_ok.mp h
        cases hpush
        intro e he
        rw [Array.toList_push, List.mem_append, List.mem_singleton] at he
        rcases he with hold | rfl
        · exact ha e hold
        · exact instruction_shown hinstr a.line

theorem AllShown.addNumbered {b : Assembly} (ha : AllShown a) {ws : List Bytes}
    (h : a.addNumbered ws = .ok b) : AllShown b := by
  cases ws with
  | nil =>
    cases h
    exact ha
  | cons w ws =>
    rw [Assembly.addNumbered] at h
    split at h
    · split at h
      · exact ha.addInstr h
      · cases h
    · exact ha.addInstr h

theorem AllShown.addLabel {b : Assembly} (ha : AllShown a) {ws : List Bytes}
    (h : a.addLabel ws = .ok b) : AllShown b := by
  rw [Assembly.addLabel.eq_def] at h
  split at h
  · simp only at h
    split at h
    · cases h
    · split at h
      · cases h
      · cases h
        exact ha
  · cases h

theorem AllShown.addLine {b : Assembly} (ha : AllShown a) {l : Bytes}
    (h : a.addLine l = .ok b) : AllShown b := by
  rw [Assembly.addLine, addWords.eq_def] at h
  split at h
  · cases h
    exact ha
  · split at h
    · exact ha.addLabel h
    · exact ha.addNumbered h

theorem AllShown.addLines {b : Assembly} (ha : AllShown a) {ls : List Bytes}
    (h : addLines none a ls = (none, b)) : AllShown b := by
  induction ls generalizing a with
  | nil =>
    cases h
    exact ha
  | cons l ls ih =>
    cases ls with
    | nil =>
      simp only [Assembly.addLines] at h
      split at h
      · rename_i hline
        cases h
        exact ha.addLine hline
      · cases h
    | cons l' ls =>
      obtain ⟨c, hline, hrest⟩ := addLines_eq_none (List.cons_ne_nil _ _) h
      have hc : AllShown c := ha.addLine hline
      have hnext : AllShown { c with line := c.line + 1 } := hc
      exact ih hnext hrest

theorem AllShown.code {code : Code} (ha : AllShown a)
    (h : a.code = .ok code) : ∀ i ∈ code, i.Shown := by
  obtain ⟨is, his, hcode⟩ := Except.bind_eq_ok.mp h
  cases hcode
  intro i hi
  obtain ⟨e, he, hresolve⟩ := exists_of_mem_mapM his (List.mem_toArray.mp hi)
  obtain ⟨hplain, hlabelled⟩ := ha e he
  rw [resolve] at hresolve
  split at hresolve
  · cases hresolve
    exact hplain
  · rename_i name hname
    split at hresolve
    · cases hresolve
      exact hlabelled name _ hname
    · cases hresolve

theorem assembled_shown {text : Bytes} {code : Code}
    (h : assemble text = .ok code) : ∀ i ∈ code, i.Shown := by
  rw [assemble, read] at h
  split at h
  · cases h
  · rename_i b hlines
    have hstart : AllShown {} := fun e he => absurd he List.not_mem_nil
    exact (hstart.addLines hlines).code h

/-- Code that was read from a text is read again from its listing unless it calls a primitive that
has no name (or has more instructions than there are addresses). -/
theorem assembled_rereads_iff {text : Bytes} {code : Code} (h : assemble text = .ok code) :
    assemble (print code) = .ok code ↔ code.size ≤ 2 ^ 63 ∧ ∀ i ∈ code, i.NamesPrim :=
  assemble_print_iff (assembled_shown h)

/-- A loop whose end is a label declared after its use. -/
def countsDown : Bytes :=
  Bytes.ofString "(top) // again\n  JUMPIF (0) end\n  CALL pred\n  JUMP top[CB]\n(end)\n  HALT\n"

def countsDownCode : Code :=
  #[.of .jumpif 0 .cb 3, .prim .pred, .of .jump 0 .cb 0, .of .halt 0 .zr 0]

theorem countsDown_rereads :
    assemble countsDown = .ok countsDownCode ∧
      (assemble (print countsDownCode) = .ok countsDownCode ↔
        countsDownCode.size ≤ 2 ^ 63 ∧ ∀ i ∈ countsDownCode, i.NamesPrim) := by
  have hread : assemble countsDown = .ok countsDownCode := by decide +kernel
  exact ⟨hread, assembled_rereads_iff hread⟩

/-- The listing of a primitive that has no name is refused. -/
theorem unnamed_call_refused :
    assemble (Bytes.ofString "CALL 99[PB]") = .ok #[.of .call 0 .pb 99] ∧
      assemble (print #[.of .call 0 .pb 99]) =
        .error (.atLine 1 (.wrongOperand (Bytes.ofString "prim(99)"))) := by
  decide +kernel

end Assembly

end Listing

end MiniJava
