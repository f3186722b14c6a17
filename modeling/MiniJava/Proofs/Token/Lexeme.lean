import MiniJava.Proofs.Token.Text
/-!
Symbols in front of a text. A word or a number takes every character that continues it, and a mark
of two characters is preferred to one of a single character.
-/
namespace MiniJava

/-- A letter, then letters, digits and underscores. -/
def isWord (x : String) : Bool :=
  match x.toList with
  | [] => false
  | c :: cs => Scan.isLetter c && cs.all Scan.isWordChar

/-- A word that is not reserved. -/
def isName (x : String) : Bool := isWord x && (Keyword.ofText? x).isNone

namespace Scan

/-- The text does not go on with a character of the class `p`. -/
def Breaks (p : Char → Bool) (rest : List Char) : Prop := ∀ c ∈ rest.head?, p c = false

section Runs

variable {p : Char → Bool} {cs rest : List Char}

theorem takeWhile_breaks (hcs : ∀ c ∈ cs, p c = true)
    (hrest : Breaks p rest) : (cs ++ rest).takeWhile p = cs := by
  rw [List.takeWhile_append_of_pos hcs]
  cases rest with
  | nil => exact List.append_nil _
  | cons c rest => rw [List.takeWhile_cons_of_neg (by simp [hrest c rfl]), List.append_nil]

theorem dropWhile_breaks (hcs : ∀ c ∈ cs, p c = true)
    (hrest : Breaks p rest) : (cs ++ rest).dropWhile p = rest := by
  rw [List.dropWhile_append_of_pos hcs]
  cases rest with
  | nil => rfl
  | cons c rest => exact List.dropWhile_cons_of_neg (by simp [hrest c rfl])

theorem breaks_dropWhile (p : Char → Bool) (cs : List Char) : Breaks p (cs.dropWhile p) := by
  induction cs with
  | nil => exact nofun
  | cons c cs ih =>
    by_cases hc : p c = true
    · rwa [List.dropWhile_cons_of_pos hc]
    · rw [List.dropWhile_cons_of_neg hc]
      intro d hd
      cases hd
      exact Bool.eq_false_iff.mpr hc

end Runs

/-- The characters with which marks start. -/
def markStarts : List Char :=
  ['\x7b', '\x7d', '(', ')', '[', ']', '.', ',', ';', '+', '-', '*', '/', '<', '>', '=', '!', '&',
    '|']

/-- A character with which neither a gap nor a symbol of the language starts. -/
def Unknown (c : Char) : Prop :=
  isBlank c = false ∧ isLetter c = false ∧ Decimal.isDigit c = false ∧ c ∉ markStarts

/-- A character that makes a slash before it the start of a comment. -/
def opensComment (c : Char) : Bool := c == '/' || c == '*'

/-- The symbol is one that a text can hold before `rest`, and `rest` does not continue it. -/
def Standing : Symbol → List Char → Prop
  | .endOfText, _ => False
  | .identifier name, rest => isName name = true ∧ Breaks isWordChar rest
  | .keyword _, rest => Breaks isWordChar rest
  | .integer digits, rest =>
    (Decimal.natural? digits.toList).isSome = true ∧ Breaks Decimal.isDigit rest
  | .punct .assign, rest => Breaks (· == '=') rest
  | .punct _, _ => True
  | .binary .lt, rest => Breaks (· == '=') rest
  | .binary .gt, rest => Breaks (· == '=') rest
  | .binary .div, rest => Breaks opensComment rest
  | .binary _, _ => True
  | .not, rest => Breaks (· == '=') rest
  | .error (.incomplete c), rest => (c = '&' ∨ c = '|') ∧ Breaks (· == c) rest
  | .error (.unrecognized c), _ => Unknown c
  | .error .unclosedComment, _ => False

theorem isLetter_iff {c : Char} :
    isLetter c = true ↔ (97 ≤ c.toNat ∧ c.toNat ≤ 122) ∨ (65 ≤ c.toNat ∧ c.toNat ≤ 90) := by
  simp [isLetter, Char.le_def, UInt32.le_iff_toNat_le]

theorem isDigit_iff {c : Char} : Decimal.isDigit c = true ↔ 48 ≤ c.toNat ∧ c.toNat ≤ 57 := by
  simp [Decimal.isDigit, Char.le_def, UInt32.le_iff_toNat_le]

theorem toNat_le_of_isBlank {c : Char} (h : isBlank c = true) : c.toNat ≤ 32 := by
  simp only [isBlank, Bool.or_eq_true, beq_iff_eq] at h
  rcases h with (((rfl | rfl) | rfl) | rfl) | rfl <;> decide

theorem toNat_le_of_isWordChar {c : Char} (h : isWordChar c = true) : c.toNat ≤ 127 := by
  simp only [isWordChar, isUnderscore, Bool.or_eq_true, beq_iff_eq, isLetter_iff, isDigit_iff] at h
  rcases h with (h | rfl) | h
  · omega
  · decide
  · omega

theorem natural?_isSome {cs : List Char} (h : (Decimal.natural? cs).isSome = true) :
    ∃ c ds, cs = c :: ds ∧ Decimal.isDigit c = true ∧ ds.all Decimal.isDigit = true := by
  cases cs with
  | nil => cases h
  | cons c ds =>
    cases hall : (c :: ds).all Decimal.isDigit with
    | false =>
      simp [Decimal.natural?, hall] at h
    | true =>
      rw [List.all_cons, Bool.and_eq_true] at hall
      exact ⟨c, ds, rfl, hall⟩

theorem isWordChar_of_mem {x : String}
    (hx : isWord x = true) : ∀ c ∈ x.toList, isWordChar c = true := by
  unfold isWord at hx
  split at hx
  · cases hx
  · rename_i c cs hchars
    rw [Bool.and_eq_true, List.all_eq_true] at hx
    rw [hchars]
    refine List.forall_mem_cons.mpr ⟨?_, hx.2⟩
    rw [isWordChar, hx.1]
    rfl

theorem isDigit_of_mem {cs : List Char} (h : (Decimal.natural? cs).isSome = true) :
    ∀ c ∈ cs, Decimal.isDigit c = true := by
  obtain ⟨c, ds, rfl, hc, hds⟩ := natural?_isSome h
  rw [List.all_eq_true] at hds
  exact List.forall_mem_cons.mpr ⟨hc, hds⟩

/-- What starts with no mark is a word, a number or unknown. -/
theorem lexeme_eq_longestRun {c : Char} (hc : c ∉ markStarts)
    (cs : List Char) : lexeme c cs = longestRun c cs := by
  fun_cases lexeme c cs
  case case20 => rfl
  all_goals exact absurd hc (by decide)

theorem not_mem_markStarts {c : Char}
    (hc : isLetter c = true ∨ Decimal.isDigit c = true) : c ∉ markStarts := by
  intro hmark
  have hnone : markStarts.all (fun d => !isLetter d && !Decimal.isDigit d) = true := by decide
  have hstart := List.all_eq_true.mp hnone c hmark
  cases hc with
  | inl hletter => simp [hletter] at hstart
  | inr hdigit => simp [hdigit] at hstart

theorem isDigit_of_isLetter {c : Char} (hc : isLetter c = true) : Decimal.isDigit c = false := by
  rw [Bool.eq_false_iff, ne_eq, isDigit_iff]
  rw [isLetter_iff] at hc
  omega

theorem lexeme_word {c : Char} {cs rest : List Char} (hc : isLetter c = true)
    (hcs : cs.all isWordChar = true) (hrest : Breaks isWordChar rest) :
    lexeme c (cs ++ rest) = (wordSymbol (String.ofList (c :: cs)), rest) := by
  rw [List.all_eq_true] at hcs
  rw [lexeme_eq_longestRun (not_mem_markStarts (.inl hc)), longestRun, isDigit_of_isLetter hc, hc,
    takeWhile_breaks hcs hrest, dropWhile_breaks hcs hrest]
  rfl

theorem lexeme_digits {c : Char} {cs rest : List Char} (hc : Decimal.isDigit c = true)
    (hcs : cs.all Decimal.isDigit = true) (hrest : Breaks Decimal.isDigit rest) :
    lexeme c (cs ++ rest) = (.integer (String.ofList (c :: cs)), rest) := by
  rw [List.all_eq_true] at hcs
  rw [lexeme_eq_longestRun (not_mem_markStarts (.inr hc)), longestRun, hc,
    takeWhile_breaks hcs hrest, dropWhile_breaks hcs hrest]
  rfl

theorem oneOrTwo_breaks {second : Char} {cs : List Char} (h : Breaks (· == second) cs)
    (single double : Symbol) : oneOrTwo second single double cs = (single, cs) := by
  cases cs with
  | nil => rfl
  | cons c cs =>
    have hc : c ≠ second := beq_eq_false_iff_ne.mp (h c rfl)
    rw [oneOrTwo, if_neg hc]

theorem oneOrTwo_cases (second : Char) (single double : Symbol) (cs : List Char) :
    (∃ rest, cs = second :: rest ∧ oneOrTwo second single double cs = (double, rest)) ∨
      Breaks (· == second) cs ∧ oneOrTwo second single double cs = (single, cs) := by
  cases cs with
  | nil => exact .inr ⟨nofun, rfl⟩
  | cons c cs =>
    by_cases hc : c = second
    · exact .inl ⟨cs, by rw [hc], by rw [oneOrTwo, if_pos hc]⟩
    · have hbreaks : Breaks (· == second) (c :: cs) := by
        intro d hd
        cases hd
        exact beq_eq_false_iff_ne.mpr hc
      exact .inr ⟨hbreaks, oneOrTwo_breaks hbreaks single double⟩

theorem oneOrTwo_symbol (second : Char) (single double : Symbol) (cs : List Char) :
    (oneOrTwo second single double cs).1 = single ∨
      (oneOrTwo second single double cs).1 = double := by
  unfold oneOrTwo
  split
  · split
    · exact .inr rfl
    · exact .inl rfl
  · exact .inl rfl

theorem lexeme_ne_endOfText (c : Char) (cs : List Char) : (lexeme c cs).1 ≠ .endOfText := by
  have hrun : (longestRun c cs).1 ≠ .endOfText := by
    unfold longestRun wordSymbol
    split
    · exact Symbol.noConfusion
    · split
      · split <;> exact Symbol.noConfusion
      · exact Symbol.noConfusion
  fun_cases lexeme c cs <;> grind [oneOrTwo_symbol]

theorem skipGap_symbol {c : Char} {cs : List Char} (hblank : isBlank c = false)
    (hcomment : c = '/' → Breaks opensComment cs) (n : Nat) :
    skipGap .blank n (c :: cs) = .before n (c :: cs) := by
  rw [skipGap]
  · rw [hblank]
    rfl
  · intro ds hc hds
    rw [hds] at hcomment
    exact absurd (hcomment hc '/' rfl) (by decide)
  · intro ds hc hds
    rw [hds] at hcomment
    exact absurd (hcomment hc '*' rfl) (by decide)

theorem skipGap_run {c : Char} (hc : isLetter c = true ∨ Decimal.isDigit c = true) (n : Nat)
    (cs : List Char) : skipGap .blank n (c :: cs) = .before n (c :: cs) := by
  have hmark := not_mem_markStarts hc
  rw [isLetter_iff, isDigit_iff] at hc
  apply skipGap_symbol
  · rw [Bool.eq_false_iff]
    intro hblank
    have := toNat_le_of_isBlank hblank
    omega
  · rintro rfl
    exact absurd hmark (by decide)

/-- A symbol at the start of a text: no gap is before it, and the scanner stops where the symbol
stops. -/
structure Starts (s : Symbol) (cs rest : List Char) : Prop where
  gap : ∀ n, skipGap .blank n cs = .before n cs
  lexeme : ∃ c ds, cs = c :: ds ∧ Scan.lexeme c ds = (s, rest)

theorem starts_word {x : String} (hx : isWord x = true) {rest : List Char}
    (hrest : Breaks isWordChar rest) : Starts (wordSymbol x) (x.toList ++ rest) rest := by
  unfold isWord at hx
  split at hx
  · cases hx
  · rename_i c cs hchars
    rw [Bool.and_eq_true] at hx
    have hlexeme := lexeme_word hx.1 hx.2 hrest
    rw [← hchars, String.ofList_toList] at hlexeme
    rw [hchars]
    exact ⟨fun n => skipGap_run (.inl hx.1) n _, c, cs ++ rest, rfl, hlexeme⟩

theorem starts_integer {digits : String} (h : (Decimal.natural? digits.toList).isSome = true)
    {rest : List Char} (hrest : Breaks Decimal.isDigit rest) :
    Starts (.integer digits) (digits.toList ++ rest) rest := by
  obtain ⟨c, ds, hchars, hc, hds⟩ := natural?_isSome h
  have hlexeme := lexeme_digits hc hds hrest
  rw [← hchars, String.ofList_toList] at hlexeme
  rw [hchars]
  exact ⟨fun n => skipGap_run (.inr hc) n _, c, ds ++ rest, rfl, hlexeme⟩

/-- A mark other than a slash starts with a character that is no blank. -/
theorem starts_mark {s : Symbol} {c : Char} {cs rest : List Char} (hc : c ∈ markStarts)
    (hslash : c ≠ '/') (hlexeme : lexeme c cs = (s, rest)) : Starts s (c :: cs) rest := by
  have hnone : markStarts.all (fun d => !isBlank d) = true := by decide
  have hblank : isBlank c = false := (Bool.not_eq_true' _).mp (List.all_eq_true.mp hnone c hc)
  exact ⟨skipGap_symbol hblank fun heq => absurd heq hslash, c, cs, rfl, hlexeme⟩

/-- The scanner finds the symbols that stand before a text. -/
theorem starts_text {s : Symbol} {rest : List Char}
    (hs : Standing s rest) : Starts s (s.text.toList ++ rest) rest := by
  cases s with
  | endOfText => exact hs.elim
  | identifier x =>
    obtain ⟨hname, hrest⟩ := hs
    rw [isName, Bool.and_eq_true, Option.isNone_iff_eq_none] at hname
    have hword := starts_word hname.1 hrest
    rw [wordSymbol, hname.2] at hword
    exact hword
  | integer digits => exact starts_integer hs.1 hs.2
  | keyword k =>
    have hsymbol : wordSymbol k.text = .keyword k := by cases k <;> decide
    have hword : isWord k.text = true := by cases k <;> decide
    have hstarts := starts_word hword hs
    rw [hsymbol] at hstarts
    exact hstarts
  | punct p =>
    cases p with
    | assign => exact starts_mark (by decide) (by decide) (oneOrTwo_breaks hs _ _)
    | _ => exact starts_mark (by decide) (by decide) rfl
  | binary op =>
    cases op with
    | lt | gt => exact starts_mark (by decide) (by decide) (oneOrTwo_breaks hs _ _)
    | div => exact ⟨skipGap_symbol (by decide) fun _ => hs, '/', rest, rfl, rfl⟩
    | _ => exact starts_mark (by decide) (by decide) rfl
  | not => exact starts_mark (by decide) (by decide) (oneOrTwo_breaks hs _ _)
  | error fault =>
    cases fault with
    | unrecognized c =>
      obtain ⟨hblank, hletter, hdigit, hmark⟩ := hs
      have hlexeme : lexeme c rest = (.error (.unrecognized c), rest) := by
        rw [lexeme_eq_longestRun hmark, longestRun, hletter, hdigit]
        rfl
      have hslash : c = '/' → Breaks opensComment rest := by
        rintro rfl
        exact absurd (by decide) hmark
      have htext : (Symbol.error (.unrecognized c)).text.toList = [c] := String.toList_singleton c
      rw [htext]
      exact ⟨skipGap_symbol hblank hslash, c, rest, rfl, hlexeme⟩
    | incomplete c =>
      obtain ⟨rfl | rfl, hrest⟩ := hs
      · exact starts_mark (by decide) (by decide) (oneOrTwo_breaks hrest _ _)
      · exact starts_mark (by decide) (by decide) (oneOrTwo_breaks hrest _ _)
    | unclosedComment => exact hs.elim

/-- No symbol goes over a line end. -/
theorem newline_not_mem_text {s : Symbol} {rest : List Char}
    (hs : Standing s rest) : '\n' ∉ s.text.toList := by
  intro hmem
  cases s with
  | endOfText => exact hs
  | identifier x =>
    have hname := hs.1
    rw [isName, Bool.and_eq_true] at hname
    exact absurd (isWordChar_of_mem hname.1 _ hmem) (by decide)
  | integer digits => exact absurd (isDigit_of_mem hs.1 _ hmem) (by decide)
  | keyword k => cases k <;> exact absurd hmem (by decide)
  | punct p => cases p <;> exact absurd hmem (by decide)
  | binary op => cases op <;> exact absurd hmem (by decide)
  | not => exact absurd hmem (by decide)
  | error fault =>
    cases fault with
    | unrecognized c =>
      have htext : (Symbol.error (.unrecognized c)).text.toList = [c] := String.toList_singleton c
      rw [htext, List.mem_singleton] at hmem
      subst hmem
      exact absurd hs.1 (by decide)
    | incomplete c =>
      obtain ⟨rfl | rfl, -⟩ := hs
      · exact absurd hmem (by decide)
      · exact absurd hmem (by decide)
    | unclosedComment => exact hs

theorem text_ne_nil {s : Symbol} {rest : List Char}
    (hs : Standing s rest) : s.text.toList ≠ [] := by
  obtain ⟨-, c, ds, hcs, hlexeme⟩ := starts_text hs
  intro hnil
  have hshort := length_lexeme_le c ds
  rw [hlexeme] at hshort
  rw [hnil, List.nil_append] at hcs
  rw [hcs] at hshort
  simp only [List.length_cons] at hshort
  omega

theorem wordSymbol_standing {x : String} (hx : isWord x = true) {rest : List Char}
    (hrest : Breaks isWordChar rest) : Standing (wordSymbol x) rest ∧ (wordSymbol x).text = x := by
  unfold wordSymbol
  split
  · rename_i k hk
    have htext := List.find?_some hk
    exact ⟨hrest, beq_iff_eq.mp htext⟩
  · rename_i hnone
    refine ⟨⟨?_, hrest⟩, rfl⟩
    rw [isName, hx, hnone]
    rfl

theorem longestRun_standing {c : Char} (hblank : isBlank c = false) (hmark : c ∉ markStarts)
    (cs : List Char) :
    Standing (longestRun c cs).1 (longestRun c cs).2 ∧
      c :: cs = (longestRun c cs).1.text.toList ++ (longestRun c cs).2 := by
  unfold longestRun
  by_cases hdigit : Decimal.isDigit c = true
  · rw [if_pos hdigit]
    have hnatural : (Decimal.natural? (c :: cs.takeWhile Decimal.isDigit)).isSome = true := by
      have hall : (c :: cs.takeWhile Decimal.isDigit).all Decimal.isDigit = true := by
        rw [List.all_cons, hdigit, List.all_takeWhile]
        rfl
      rw [Decimal.natural?, hall]
      rfl
    refine ⟨⟨?_, breaks_dropWhile _ _⟩, ?_⟩
    · rw [String.toList_ofList]
      exact hnatural
    · rw [Symbol.text, String.toList_ofList, List.cons_append, List.takeWhile_append_dropWhile]
  · rw [if_neg hdigit]
    by_cases hletter : isLetter c = true
    · rw [if_pos hletter]
      have hword : isWord (String.ofList (c :: cs.takeWhile isWordChar)) = true := by
        rw [isWord, String.toList_ofList]
        simp only [hletter, List.all_takeWhile, Bool.and_self]
      obtain ⟨hstanding, htext⟩ := wordSymbol_standing hword (breaks_dropWhile isWordChar cs)
      refine ⟨hstanding, ?_⟩
      rw [htext, String.toList_ofList, List.cons_append, List.takeWhile_append_dropWhile]
    · rw [if_neg hletter]
      refine ⟨⟨hblank, Bool.eq_false_iff.mpr hletter, Bool.eq_false_iff.mpr hdigit, hmark⟩, ?_⟩
      have htext : (Symbol.error (.unrecognized c)).text.toList = [c] := String.toList_singleton c
      rw [htext]
      rfl

theorem mark_standing {s : Symbol} {c : Char} {rest : List Char} (htext : s.text.toList = [c])
    (hs : Standing s rest) : Standing s rest ∧ c :: rest = s.text.toList ++ rest := by
  rw [htext]
  exact ⟨hs, rfl⟩

theorem oneOrTwo_standing {c second : Char} {single double : Symbol}
    (hsingle : single.text.toList = [c]) (hdouble : double.text.toList = [c, second])
    (hstop : ∀ rest, Breaks (· == second) rest → Standing single rest)
    (hgo : ∀ rest, Standing double rest) (cs : List Char) :
    Standing (oneOrTwo second single double cs).1 (oneOrTwo second single double cs).2 ∧
      c :: cs = (oneOrTwo second single double cs).1.text.toList ++
        (oneOrTwo second single double cs).2 := by
  obtain ⟨rest, hcs, heq⟩ | ⟨hbreaks, heq⟩ := oneOrTwo_cases second single double cs
  · rw [heq, hcs, hdouble]
    exact ⟨hgo rest, rfl⟩
  · rw [heq]
    exact mark_standing hsingle (hstop cs hbreaks)

/-- Whatever the scanner finds where no gap is stands there. -/
theorem lexeme_standing {c : Char} {cs : List Char} (hblank : isBlank c = false)
    (hcomment : c = '/' → Breaks opensComment cs) :
    Standing (lexeme c cs).1 (lexeme c cs).2 ∧
      c :: cs = (lexeme c cs).1.text.toList ++ (lexeme c cs).2 := by
  fun_cases lexeme c cs
  case case13 =>
    dsimp only
    exact mark_standing (by decide) (hcomment rfl)
  case case14 | case15 | case16 | case17 =>
    apply oneOrTwo_standing
    · decide
    · decide
    · exact fun _ h => h
    · exact fun _ => trivial
  case case18 | case19 =>
    apply oneOrTwo_standing
    · decide
    · decide
    · exact fun _ h => ⟨by decide, h⟩
    · exact fun _ => trivial
  case case20 =>
    apply longestRun_standing hblank
    simp only [markStarts, List.mem_cons, List.not_mem_nil, or_false, not_or]
    repeat' constructor
    all_goals assumption
  all_goals
    dsimp only
    exact mark_standing (by decide) trivial

end Scan

end MiniJava
