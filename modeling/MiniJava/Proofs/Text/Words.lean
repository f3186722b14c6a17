import MiniJava.Machine.Word
import MiniJava.Proofs.Token.Spaced
import MiniJava.Text.Blank
/-!
Texts that are read back word by word: numerals give their numbers, and words of visible characters
with blanks between them are the fields of a line.
-/
namespace MiniJava

namespace Decimal

theorem toNat_digit {n : Nat} (h : n < 10) : (digit n).toNat = 48 + n := by
  have hvalid : (48 + n).isValidChar := .inl (by omega)
  rw [digit, Char.ofNat, dif_pos hvalid]
  exact UInt32.toNat_ofNatLT

theorem isDigit_digit {n : Nat} (h : n < 10) : isDigit (digit n) = true := by
  rw [Scan.isDigit_iff, toNat_digit h]
  omega

theorem value_append (ds : List Char) (d : Char) :
    value (ds ++ [d]) = 10 * value ds + (d.toNat - 48) := by
  simp [value]

theorem value_digits (n : Nat) : value (digits n) = n := by
  induction n using Nat.strongRecOn with
  | ind n ih =>
    rw [digits]
    split
    · rename_i hn
      simp [value, toNat_digit hn]
    · rename_i hn
      rw [value_append, ih (n / 10) (by omega), toNat_digit (Nat.mod_lt _ (by decide))]
      omega

theorem all_isDigit_digits (n : Nat) : (digits n).all isDigit = true := by
  induction n using Nat.strongRecOn with
  | ind n ih =>
    rw [digits]
    split
    · rename_i hn
      simp [isDigit_digit hn]
    · rw [List.all_append, ih (n / 10) (by omega)]
      simp [isDigit_digit (Nat.mod_lt n (by decide : 10 > 0))]

theorem digits_ne_nil (n : Nat) : digits n ≠ [] := by
  rw [digits]
  split <;> simp

theorem natural?_digits (n : Nat) : natural? (digits n) = some n := by
  rw [natural?, all_isDigit_digits, value_digits]
  simp [digits_ne_nil]

/-- Digits are not signs, nor any of the other marks of an operand. -/
theorem ne_of_isDigit {c d : Char} (hc : isDigit c = true) (hd : isDigit d = false) : c ≠ d := by
  rintro rfl
  cases hc.symm.trans hd

theorem exists_digits (n : Nat) : ∃ c cs, digits n = c :: cs ∧ isDigit c = true := by
  obtain ⟨c, cs, hcs⟩ := List.exists_cons_of_ne_nil (digits_ne_nil n)
  have hall := all_isDigit_digits n
  rw [hcs, List.all_cons, Bool.and_eq_true] at hall
  exact ⟨c, cs, hcs, hall.1⟩

theorem integer?_digits (n : Nat) : integer? (digits n) = some (n : Int) := by
  obtain ⟨c, cs, hcs, hc⟩ := exists_digits n
  have hminus : c ≠ '-' := ne_of_isDigit hc (by decide)
  have hnatural := natural?_digits n
  rw [hcs] at hnatural ⊢
  rw [integer?.eq_def]
  split
  · rename_i heq
    exact absurd (List.cons.inj heq).1 hminus
  · rw [hnatural]
    rfl

theorem signed?_digits (n : Nat) : signed? (digits n) = some (n : Int) := by
  obtain ⟨c, cs, hcs, hc⟩ := exists_digits n
  have hplus : c ≠ '+' := ne_of_isDigit hc (by decide)
  have hinteger := integer?_digits n
  rw [hcs] at hinteger ⊢
  rw [signed?.eq_def]
  split
  · rename_i heq
    exact absurd (List.cons.inj heq).1 hplus
  · exact hinteger

/-- A numeral is read back as its number. -/
theorem integer?_ofInt (n : Int) : integer? (ofInt n) = some n := by
  cases n with
  | ofNat n => exact integer?_digits n
  | negSucc n =>
    rw [ofInt, integer?, natural?_digits]
    rfl

theorem of_mem_ofInt {n : Int} {c : Char} (h : c ∈ ofInt n) : c = '-' ∨ isDigit c = true := by
  have hdigits (k : Nat) (hk : c ∈ digits k) : isDigit c = true :=
    List.all_eq_true.mp (all_isDigit_digits k) c hk
  cases n with
  | ofNat n => exact .inr (hdigits n h)
  | negSucc n => exact (List.mem_cons.mp h).imp_right (hdigits (n + 1))

theorem ofInt_ne_nil (n : Int) : ofInt n ≠ [] := by
  cases n with
  | ofNat n => exact digits_ne_nil n
  | negSucc n => exact List.cons_ne_nil _ _

end Decimal

namespace Word

theorem ofInt?_toInt (w : Word) : ofInt? w.toInt = some w := by
  have hlow := Int64.le_toInt w
  have hhigh := Int64.toInt_lt w
  rw [ofInt?, if_pos ⟨by omega, by omega⟩, Int64.ofInt_toInt]

theorem nearest_toInt (w : Word) : nearest w.toInt = w := by
  have hlow := Int64.le_toInt w
  have hhigh := Int64.toInt_lt w
  rw [nearest, if_neg (by omega), if_neg (by omega), Int64.ofInt_toInt]

end Word

/-- The characters of words: they are neither blanks nor line ends, and start no comment. -/
def isSolid (c : Char) : Bool := 33 ≤ c.toNat && c.toNat ≤ 126 && c != '/'

theorem isSolid_of_isDigit {c : Char} (h : Decimal.isDigit c = true) : isSolid c = true := by
  have hslash : c ≠ '/' := Decimal.ne_of_isDigit h (by decide)
  rw [Scan.isDigit_iff] at h
  simp only [isSolid, Bool.and_eq_true, decide_eq_true_eq, bne_iff_ne]
  exact ⟨⟨by omega, by omega⟩, hslash⟩

namespace Bytes

/-- The bytes of one-byte characters. -/
def ofChars (cs : List Char) : Bytes := cs.map Char.toUInt8

@[simp] theorem ofChars_nil : ofChars [] = [] := rfl

@[simp] theorem ofChars_cons (c : Char) (cs : List Char) :
    ofChars (c :: cs) = c.toUInt8 :: ofChars cs :=
  rfl

@[simp] theorem ofChars_append (cs ds : List Char) :
    ofChars (cs ++ ds) = ofChars cs ++ ofChars ds :=
  List.map_append

@[simp] theorem ofChars_eq_nil {cs : List Char} : ofChars cs = [] ↔ cs = [] := List.map_eq_nil_iff

theorem utf8EncodeChar_of_le {c : Char}
    (hc : c.toNat ≤ 127) : String.utf8EncodeChar c = [c.toUInt8] := by
  have hval : c.val.toNat ≤ 127 := hc
  simp only [String.utf8EncodeChar, hval, if_true]
  rfl

theorem ofString_eq_ofChars {s : String}
    (hs : ∀ c ∈ s.toList, c.toNat ≤ 127) : ofString s = ofChars s.toList := by
  unfold ofString ofChars
  generalize s.toList = cs at hs ⊢
  induction cs with
  | nil => rfl
  | cons c cs ih =>
    rw [List.flatMap_cons, utf8EncodeChar_of_le (hs c List.mem_cons_self),
      ih fun d hd => hs d (List.mem_cons_of_mem _ hd)]
    rfl

theorem toChars_ofChars {cs : List Char}
    (hcs : ∀ c ∈ cs, c.toNat ≤ 127) : (ofChars cs).toChars = cs := by
  have htext := toChars_ofString (s := String.ofList cs) (by simpa using hcs)
  rw [ofString_eq_ofChars (by simpa using hcs)] at htext
  simpa using htext

end Bytes

theorem isSolid_iff {c : Char} : isSolid c = true ↔ 33 ≤ c.toNat ∧ c.toNat ≤ 126 ∧ c ≠ '/' := by
  simp [isSolid, and_assoc]

theorem toNat_toUInt8 {c : Char} (hc : c.toNat ≤ 127) : c.toUInt8.toNat = c.toNat := by
  change c.val.toUInt8.toNat = c.val.toNat
  have hval : c.val.toNat ≤ 127 := hc
  rw [UInt32.toNat_toUInt8]
  omega

theorem toUInt8_inj {c d : Char} (hc : c.toNat ≤ 127)
    (hd : d.toNat ≤ 127) : c.toUInt8 = d.toUInt8 ↔ c = d := by
  refine ⟨fun h => Char.toNat_inj.mp ?_, fun h => h ▸ rfl⟩
  rw [← toNat_toUInt8 hc, ← toNat_toUInt8 hd, h]

namespace Blank

theorem strip?_of_lt {b : UInt8} (hb : b.toNat < 128) (bs : Bytes) :
    strip? (b :: bs) = if isAscii b then some bs else none := by
  rw [strip?.eq_def]
  split
  all_goals
    rename_i heq
    cases heq
  -- only the last form starts with a byte below 128
  case h_6 => rfl
  all_goals exact absurd hb (by decide)

theorem strip?_solid {c : Char} (hc : isSolid c = true)
    (bs : Bytes) : strip? (c.toUInt8 :: bs) = none := by
  obtain ⟨hlow, hhigh, -⟩ := isSolid_iff.mp hc
  have hnat := toNat_toUInt8 (c := c) (by omega)
  rw [strip?_of_lt (by omega), if_neg]
  simp only [isAscii, Bool.or_eq_true, Bool.and_eq_true, beq_iff_eq, decide_eq_true_eq,
    ← UInt8.toNat_inj, UInt8.le_iff_toNat_le, hnat]
  change ¬ (c.toNat = 32 ∨ 9 ≤ c.toNat ∧ c.toNat ≤ 13)
  omega

theorem skip_blank (bs : Bytes) : skip (' '.toUInt8 :: bs) = skip bs := by
  rw [skip.eq_def]
  split
  · rename_i rest h
    rw [strip?_of_lt (by decide), if_pos (by decide)] at h
    cases h
    rfl
  · rename_i h
    rw [strip?_of_lt (by decide), if_pos (by decide)] at h
    cases h

theorem skip_solid {c : Char} (hc : isSolid c = true) (bs : Bytes) :
    skip (c.toUInt8 :: bs) = c.toUInt8 :: bs := by
  rw [skip.eq_def]
  split
  · rename_i rest h
    cases h.symm.trans (strip?_solid hc bs)
  · rfl

theorem fields_of_skip {bs : Bytes} : skip bs = [] → fields bs = [] := by
  intro h
  rw [fields.eq_def]
  split
  · rfl
  · rename_i heq
    cases h.symm.trans heq

theorem fields_of_skip_cons {bs rest : Bytes} {b : UInt8} (h : skip bs = b :: rest) :
    fields bs = (b :: (word rest).1) :: fields (word rest).2 := by
  rw [fields.eq_def]
  split
  · rename_i heq
    cases h.symm.trans heq
  · rename_i heq
    cases h.symm.trans heq
    rfl

theorem fields_nil : fields [] = [] := fields_of_skip (by rw [skip.eq_def]; rfl)

theorem fields_blank (bs : Bytes) : fields (' '.toUInt8 :: bs) = fields bs := by
  cases h : skip bs with
  | nil => rw [fields_of_skip h, fields_of_skip ((skip_blank bs).trans h)]
  | cons b rest => rw [fields_of_skip_cons h, fields_of_skip_cons ((skip_blank bs).trans h)]

theorem fields_blanks (n : Nat) (bs : Bytes) :
    fields (Bytes.ofChars (List.replicate n ' ') ++ bs) = fields bs := by
  induction n with
  | zero => rfl
  | succ n ih => rw [List.replicate_succ, Bytes.ofChars_cons, List.cons_append, fields_blank, ih]

/-- A word ends at a blank or at the end of the text. -/
def AtGap (rest : Bytes) : Prop := rest.head? = none ∨ rest.head? = some ' '.toUInt8

theorem word_solid {cs : List Char} (hcs : cs.all isSolid = true) {rest : Bytes}
    (hrest : AtGap rest) : word (Bytes.ofChars cs ++ rest) = (Bytes.ofChars cs, rest) := by
  induction cs with
  | nil =>
    cases rest with
    | nil => rfl
    | cons b rest =>
      rcases hrest with hnone | hblank
      · cases hnone
      · cases hblank
        rw [Bytes.ofChars_nil, List.nil_append, word, strip?_of_lt (by decide), if_pos (by decide)]
  | cons c cs ih =>
    rw [List.all_cons, Bool.and_eq_true] at hcs
    rw [Bytes.ofChars_cons, List.cons_append, word, strip?_solid hcs.1]
    simp only [ih hcs.2]

theorem fields_word {cs : List Char} (hne : cs ≠ []) (hcs : cs.all isSolid = true) {rest : Bytes}
    (hrest : AtGap rest) : fields (Bytes.ofChars cs ++ rest) = Bytes.ofChars cs :: fields rest := by
  obtain ⟨c, ds, rfl⟩ := List.exists_cons_of_ne_nil hne
  rw [List.all_cons, Bool.and_eq_true] at hcs
  have hskip : skip (Bytes.ofChars (c :: ds) ++ rest) = c.toUInt8 :: (Bytes.ofChars ds ++ rest) :=
    skip_solid hcs.1 _
  rw [fields_of_skip_cons hskip, word_solid hcs.2 hrest]
  rfl

end Blank

end MiniJava
