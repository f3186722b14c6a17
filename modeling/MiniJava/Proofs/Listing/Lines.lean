import MiniJava.Listing.Assembly
import MiniJava.Listing.Print
import MiniJava.Proofs.Machine.Effect
import MiniJava.Proofs.Text.Words
/-!
What the lines of a listing say. A line is its address, the name of the operation and the words of
the operand, with blanks between them; read as words, each operand says what it was written for.
-/
namespace MiniJava

theorem numbered?_eq_some {α : Type} [BEq α] [LawfulBEq α] {all : List α} (hall : all.Nodup)
    {w : Word} {x : α} (h : numbered? all w = some x) : w = Word.ofNat (all.idxOf x) := by
  obtain ⟨i, hi, rfl⟩ := Option.map_eq_some_iff.mp h
  rw [Word.eq_of_index? hi, List.get_eq_getElem, hall.idxOf_getElem]

theorem Op.number_of_ofNumber? {w : Word} {op : Op} (h : ofNumber? w = some op) : w = op.number :=
  numbered?_eq_some (by decide) h

theorem Reg.number_of_ofNumber? {w : Word} {r : Reg} (h : ofNumber? w = some r) : w = r.number :=
  numbered?_eq_some (by decide) h

theorem Prim.number_of_ofNumber? {w : Word} {p : Prim} (h : ofNumber? w = some p) : w = p.number :=
  numbered?_eq_some (by decide) h

theorem Op.number_inj {op op' : Op} : op.number = op'.number ↔ op = op' := by
  refine ⟨fun h => ?_, fun h => h ▸ rfl⟩
  have hop := Op.ofNumber?_number op
  rw [h, Op.ofNumber?_number] at hop
  exact (Option.some.inj hop).symm

theorem Reg.number_inj {r r' : Reg} : r.number = r'.number ↔ r = r' := by
  refine ⟨fun h => ?_, fun h => h ▸ rfl⟩
  have hr := Reg.ofNumber?_number r
  rw [h, Reg.ofNumber?_number] at hr
  exact (Option.some.inj hr).symm

theorem Op.ofName?_name (op : Op) : ofName? op.name = some op := by cases op <;> decide

theorem Reg.ofName?_name (r : Reg) : ofName? r.name = some r := by cases r <;> decide

theorem Prim.ofName?_name (p : Prim) : ofName? p.name = some p := by cases p <;> decide

namespace Listing

/-- The characters of a numeral. -/
def numeral (w : Word) : List Char := Decimal.ofInt w.toInt

/-- `(n)` -/
def countWord (n : Word) : List Char := '(' :: (numeral n ++ [')'])

/-- `d[REG]` -/
def basedWord (r : Reg) (d : Word) : List Char := numeral d ++ '[' :: (r.name.toList ++ [']'])

/-- The words of an operand. -/
def operandWords (op : Op) (n : Word) (r : Reg) (d : Word) : List (List Char) :=
  match op with
  | .loadi | .storei | .jumpi | .halt => []
  | .loadl | .push | .pop => [numeral d]
  | .ret => [countWord n, numeral d]
  | .jumpif => [countWord n, basedWord r d]
  | .call => if r = .pb then [(Prim.nameOf d).toList] else [basedWord r d]
  | .load | .loada | .store | .calli | .jump => [basedWord r d]

/-- Words with blanks before each: `pad` of them before the first and one before every other. -/
def spell (pad : Nat) : List (List Char) → List Char
  | [] => []
  | w :: ws => List.replicate pad ' ' ++ (w ++ spell 1 ws)

theorem text_of (op : Op) (n : Word) (r : Reg) (d : Word) :
    (Instr.of op n r d).text.toList = op.name.toList ++ spell (7 - op.name.length)
      (operandWords op n r d) := by
  have hop : Op.nameOf op.number = op.name := by rw [Op.nameOf, Op.ofNumber?_number]
  have hreg : Reg.nameOf r.number = r.name := by rw [Reg.nameOf, Reg.ofNumber?_number]
  rw [Instr.text]
  simp only [Instr.of, Op.ofNumber?_number, hop, hreg, Reg.number_inj]
  cases op with
  | call =>
    by_cases hr : r = .pb
    · simp [operandWords, spell, hr, Instr.opColumn]
    · simp [operandWords, spell, hr, Instr.opColumn, basedWord, Instr.numeral, numeral]
  | _ => simp [operandWords, spell, Instr.opColumn, basedWord, countWord, Instr.numeral, numeral]

/-! ### Splitting into words -/

theorem isSolid_numeral (w : Word) : (numeral w).all isSolid = true := by
  refine List.all_eq_true.mpr fun c hc => ?_
  rcases Decimal.of_mem_ofInt hc with rfl | hdigit
  · decide
  · exact isSolid_of_isDigit hdigit

theorem isSolid_opName (op : Op) : op.name.toList.all isSolid = true := by cases op <;> decide

theorem isSolid_regName (r : Reg) : r.name.toList.all isSolid = true := by cases r <;> decide

theorem isSolid_primName (p : Prim) : p.name.toList.all isSolid = true ∧ p.name.toList ≠ [] := by
  cases p <;> decide

theorem isSolid_repr (n : Nat) : n.repr.toList.all isSolid = true := by
  refine List.all_eq_true.mpr fun c hc => isSolid_of_isDigit ?_
  rw [Nat.toList_repr] at hc
  have hdigit := Nat.isDigit_of_mem_toDigits (by decide) (by decide) hc
  simpa [Char.isDigit, Decimal.isDigit, Char.le_def] using hdigit

theorem toList_nameOf_none {d : Word} (hd : Prim.ofNumber? d = none) :
    ∃ cs, (Prim.nameOf d).toList = 'p' :: 'r' :: 'i' :: 'm' :: '(' :: (cs ++ [')']) ∧
      cs.all isSolid = true := by
  refine ⟨d.toInt.repr.toList, ?_, ?_⟩
  · simp only [Prim.nameOf, hd, String.toList_append, toString]
    rfl
  · cases d.toInt with
    | ofNat n => exact isSolid_repr n
    | negSucc n =>
      change ("-" ++ (n + 1).repr).toList.all isSolid = true
      rw [String.toList_append, List.all_append, isSolid_repr]
      rfl

theorem isSolid_nameOf (d : Word) :
    (Prim.nameOf d).toList.all isSolid = true ∧ (Prim.nameOf d).toList ≠ [] := by
  cases hd : Prim.ofNumber? d with
  | some p =>
    have hname : Prim.nameOf d = p.name := by rw [Prim.nameOf, hd]
    rw [hname]
    exact isSolid_primName p
  | none =>
    obtain ⟨cs, hcs, hsolid⟩ := toList_nameOf_none hd
    rw [hcs]
    refine ⟨?_, List.cons_ne_nil _ _⟩
    simp only [List.all_cons, List.all_append, hsolid]
    decide

theorem isSolid_countWord (n : Word) : (countWord n).all isSolid = true := by
  simp only [countWord, List.all_cons, List.all_append, isSolid_numeral]
  decide

theorem isSolid_basedWord (r : Reg) (d : Word) : (basedWord r d).all isSolid = true := by
  simp only [basedWord, List.all_cons, List.all_append, isSolid_numeral, isSolid_regName]
  decide

theorem solid_operandWords {op : Op} {n : Word} {r : Reg} {d : Word} {w : List Char}
    (hw : w ∈ operandWords op n r d) : w ≠ [] ∧ w.all isSolid = true := by
  have hnumeral (d : Word) : numeral d ≠ [] ∧ (numeral d).all isSolid = true :=
    ⟨Decimal.ofInt_ne_nil _, isSolid_numeral d⟩
  have hcount : countWord n ≠ [] ∧ (countWord n).all isSolid = true :=
    ⟨List.cons_ne_nil _ _, isSolid_countWord n⟩
  have hbased : basedWord r d ≠ [] ∧ (basedWord r d).all isSolid = true :=
    ⟨by simp [basedWord], isSolid_basedWord r d⟩
  cases op with
  | loadi | storei | jumpi | halt => cases hw
  | loadl | push | pop =>
    cases List.mem_singleton.mp hw
    exact hnumeral d
  | ret =>
    rcases List.mem_pair.mp hw with rfl | rfl
    · exact hcount
    · exact hnumeral d
  | jumpif =>
    rcases List.mem_pair.mp hw with rfl | rfl
    · exact hcount
    · exact hbased
  | call =>
    rw [operandWords] at hw
    split at hw
    · cases List.mem_singleton.mp hw
      exact (isSolid_nameOf d).symm
    · cases List.mem_singleton.mp hw
      exact hbased
  | load | loada | store | calli | jump =>
    cases List.mem_singleton.mp hw
    exact hbased

theorem atGap_spell {pad : Nat} (hpad : 0 < pad) (ws : List (List Char)) :
    Blank.AtGap (Bytes.ofChars (spell pad ws)) := by
  cases ws with
  | nil => exact .inl rfl
  | cons w ws =>
    obtain ⟨k, rfl⟩ := Nat.exists_eq_add_of_lt hpad
    rw [spell, Nat.zero_add, List.replicate_succ]
    exact .inr rfl

theorem fields_spell {pad : Nat} (hpad : 0 < pad) {ws : List (List Char)}
    (hws : ∀ w ∈ ws, w ≠ [] ∧ w.all isSolid = true) :
    Blank.fields (Bytes.ofChars (spell pad ws)) = ws.map Bytes.ofChars := by
  induction ws generalizing pad with
  | nil => exact Blank.fields_nil
  | cons w ws ih =>
    obtain ⟨⟨hne, hsolid⟩, hws⟩ := List.forall_mem_cons.mp hws
    rw [spell, Bytes.ofChars_append, Blank.fields_blanks, Bytes.ofChars_append,
      Blank.fields_word hne hsolid (atGap_spell Nat.one_pos ws), ih Nat.one_pos hws, List.map_cons]

/-- The characters of a line without its end. -/
def row (a : Nat) (i : Instr) : List Char := (addressColumn a).toList ++ ' ' :: ' ' :: i.text.toList

theorem toList_line (a : Nat) (i : Instr) : (line a i).toList = row a i ++ ['\n'] := by
  simp [line, row]

/-- A line is read as its address, the name of the operation and the words of the operand. -/
theorem fields_row (a : Nat) (op : Op) (n : Word) (r : Reg) (d : Word) :
    Blank.fields (Bytes.ofChars (row a (.of op n r d))) =
      Bytes.ofChars (Decimal.digits a) :: Bytes.ofChars op.name.toList ::
        (operandWords op n r d).map Bytes.ofChars := by
  have hdigits : (Decimal.digits a).all isSolid = true := by
    refine List.all_eq_true.mpr fun c hc => isSolid_of_isDigit ?_
    exact List.all_eq_true.mp (Decimal.all_isDigit_digits a) c hc
  have hname : op.name.toList ≠ [] ∧ 0 < 7 - op.name.length := by cases op <;> decide
  have hrest : Blank.fields (Bytes.ofChars (Instr.of op n r d).text.toList) =
      Bytes.ofChars op.name.toList :: (operandWords op n r d).map Bytes.ofChars := by
    rw [text_of, Bytes.ofChars_append,
      Blank.fields_word hname.1 (isSolid_opName op) (atGap_spell hname.2 _),
      fields_spell hname.2 fun w hw => solid_operandWords hw]
  rw [row, addressColumn, String.toList_ofList, List.append_assoc, Bytes.ofChars_append,
    Blank.fields_blanks, Bytes.ofChars_append,
    Blank.fields_word (Decimal.digits_ne_nil a) hdigits (.inr rfl), Bytes.ofChars_cons,
    Bytes.ofChars_cons, Blank.fields_blank, Blank.fields_blank, hrest]

/-! ### Reading operands -/

theorem ne_of_mem_numeral {w : Word} {c d : Char} (hc : c ∈ numeral w)
    (hd : Decimal.isDigit d = false) (hminus : d ≠ '-') : c ≠ d := by
  rcases Decimal.of_mem_ofInt hc with rfl | hdigit
  · exact hminus.symm
  · exact Decimal.ne_of_isDigit hdigit hd

theorem exists_numeral (w : Word) :
    ∃ c cs, numeral w = c :: cs ∧ (c = '-' ∨ Decimal.isDigit c = true) := by
  obtain ⟨c, cs, hcs⟩ := List.exists_cons_of_ne_nil (Decimal.ofInt_ne_nil w.toInt)
  exact ⟨c, cs, hcs, Decimal.of_mem_ofInt (hcs ▸ List.mem_cons_self)⟩

theorem isLabel_numeral (w : Word) : isLabel (numeral w) = false := by
  obtain ⟨c, cs, hcs, hc⟩ := exists_numeral w
  have hstart : isLabelStart c = false := by
    rcases hc with rfl | hdigit
    · decide
    · rw [Scan.isDigit_iff] at hdigit
      rw [Bool.eq_false_iff]
      intro hstart
      simp only [isLabelStart, isUpper, Char.le_def, UInt32.le_iff_toNat_le, Bool.or_eq_true,
        Bool.and_eq_true, decide_eq_true_eq, beq_iff_eq] at hstart
      have hval : c.val.toNat = c.toNat := rfl
      rcases hstart with ((((hupper | hlower) | rfl) | rfl) | rfl) | rfl
      · have : ('A' : Char).val.toNat = 65 := rfl
        omega
      · have : ('a' : Char).val.toNat = 97 := rfl
        omega
      all_goals revert hdigit; decide
  rw [hcs, isLabel, hstart, Bool.false_and]

theorem value?_numeral (w : Word) : value? (numeral w) = some (.number w) := by
  have hinteger : Decimal.integer? (numeral w) = some w.toInt := Decimal.integer?_ofInt w.toInt
  rw [value?, isLabel_numeral, if_neg Bool.false_ne_true, hinteger]
  simp [Word.ofInt?_toInt]

theorem optionalValue?_numeral (w : Word) :
    optionalValue? (numeral w) = some (some (.number w)) := by
  obtain ⟨c, cs, hcs, -⟩ := exists_numeral w
  rw [optionalValue?, value?_numeral, hcs]
  rfl

theorem optionalReg?_name (r : Reg) :
    optionalReg? ('[' :: (r.name.toList ++ [']'])) = some (some r.name) := by
  cases r <;> decide

theorem based?_numeral (count : Option Word) (d : Word) :
    based? count (numeral d) = some ⟨count, some (.number d), none⟩ := by
  have hall : ∀ c ∈ numeral d, (c != '[') = true := fun c hc =>
    bne_iff_ne.mpr (ne_of_mem_numeral hc (by decide) (by decide))
  rw [based?, List.takeWhile_eq_self_iff.mpr hall, List.dropWhile_eq_nil_iff.mpr hall,
    optionalValue?_numeral]
  rfl

theorem based?_basedWord (count : Option Word) (r : Reg) (d : Word) :
    based? count (basedWord r d) = some ⟨count, some (.number d), some r.name⟩ := by
  have hall : ∀ c ∈ numeral d, (c != '[') = true := fun c hc =>
    bne_iff_ne.mpr (ne_of_mem_numeral hc (by decide) (by decide))
  have htake : (basedWord r d).takeWhile (· != '[') = numeral d := by
    rw [basedWord, List.takeWhile_append_of_pos hall, List.takeWhile_cons_of_neg (by decide),
      List.append_nil]
  have hdrop : (basedWord r d).dropWhile (· != '[') = '[' :: (r.name.toList ++ [']']) := by
    rw [basedWord, List.dropWhile_append_of_pos hall, List.dropWhile_cons_of_neg (by decide)]
  rw [based?, htake, hdrop, optionalValue?_numeral, optionalReg?_name]
  rfl

theorem count?_countWord (n : Word) : count? (countWord n) = some (n, []) := by
  have hall : ∀ c ∈ numeral n, (c != ')') = true := fun c hc =>
    bne_iff_ne.mpr (ne_of_mem_numeral hc (by decide) (by decide))
  have hinteger : Decimal.integer? (numeral n) = some n.toInt := Decimal.integer?_ofInt n.toInt
  rw [countWord, count?, List.takeWhile_append_of_pos hall, List.dropWhile_append_of_pos hall,
    List.takeWhile_cons_of_neg (by decide), List.dropWhile_cons_of_neg (by decide), List.append_nil,
    hinteger]
  simp [Word.nearest_toInt]

/-- An operand that does not start with a parenthesis has no count. -/
theorem single?_of_ne {c : Char}
    (hc : c ≠ '(') (cs : List Char) : single? (c :: cs) = based? none (c :: cs) := by
  rw [single?.eq_def]
  split
  · rename_i heq
    exact absurd (List.cons.inj heq).1 hc
  · rfl

theorem single?_numeral (d : Word) : single? (numeral d) = some ⟨none, some (.number d), none⟩ := by
  obtain ⟨c, cs, hcs, -⟩ := exists_numeral d
  have hc : c ≠ '(' := ne_of_mem_numeral (hcs ▸ List.mem_cons_self) (by decide) (by decide)
  rw [hcs, single?_of_ne hc, ← hcs, based?_numeral]

theorem single?_basedWord (r : Reg) (d : Word) :
    single? (basedWord r d) = some ⟨none, some (.number d), some r.name⟩ := by
  obtain ⟨c, cs, hcs, -⟩ := exists_numeral d
  have hc : c ≠ '(' := ne_of_mem_numeral (hcs ▸ List.mem_cons_self) (by decide) (by decide)
  have hword : basedWord r d = c :: (cs ++ '[' :: (r.name.toList ++ [']'])) := by
    rw [basedWord, hcs, List.cons_append]
  rw [hword, single?_of_ne hc, ← hword, based?_basedWord]

theorem single?_primName (p : Prim) :
    single? p.name.toList = some ⟨none, some (.symbol p.name), none⟩ := by
  cases p <;> decide

/-- The mark of a number that names no primitive is no operand. -/
theorem single?_nameOf_none {d : Word}
    (hd : Prim.ofNumber? d = none) : single? (Prim.nameOf d).toList = none := by
  obtain ⟨cs, hcs, -⟩ := toList_nameOf_none hd
  rw [hcs, single?_of_ne (by decide), based?]
  have htake : ∃ ds, ('p' :: 'r' :: 'i' :: 'm' :: '(' :: (cs ++ [')'])).takeWhile (· != '[') =
      'p' :: 'r' :: 'i' :: 'm' :: '(' :: ds := ⟨(cs ++ [')']).takeWhile (· != '['), rfl⟩
  obtain ⟨ds, hds⟩ := htake
  rw [hds]
  rfl

theorem toChars_ofChars_solid {cs : List Char}
    (hcs : cs.all isSolid = true) : (Bytes.ofChars cs).toChars = cs := by
  refine Bytes.toChars_ofChars fun c hc => ?_
  obtain ⟨-, hhigh, -⟩ := isSolid_iff.mp (List.all_eq_true.mp hcs c hc)
  omega

end Listing

end MiniJava
