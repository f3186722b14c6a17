import MiniJava.Proofs.Token.Reading
/-!
Symbols written with one blank between them. Scanning such a text gives the symbols back, because a
blank ends every symbol and no symbol starts with one.
-/
namespace MiniJava

namespace Bytes

theorem ofUInt8_utf8EncodeChar {c : Char} (hc : c.toNat ≤ 127) :
    (String.utf8EncodeChar c).map Char.ofUInt8 = [c] := by
  have hval : c.val.toNat ≤ 127 := hc
  simp only [String.utf8EncodeChar, hval, if_true, List.map_cons, List.map_nil]
  congr 1
  apply Char.ext
  apply UInt32.toNat_inj.mp
  change (c.val.toUInt8.toUInt32).toNat = c.val.toNat
  rw [UInt8.toNat_toUInt32, UInt32.toNat_toUInt8]
  omega

/-- A text of one-byte characters is its own bytes. -/
theorem toChars_ofString {s : String}
    (hs : ∀ c ∈ s.toList, c.toNat ≤ 127) : (ofString s).toChars = s.toList := by
  unfold ofString toChars
  generalize s.toList = cs at hs ⊢
  induction cs with
  | nil => rfl
  | cons c cs ih =>
    rw [List.flatMap_cons, List.map_append, ofUInt8_utf8EncodeChar (hs c List.mem_cons_self),
      ih fun d hd => hs d (List.mem_cons_of_mem _ hd)]
    rfl

end Bytes

namespace Symbol

/-- The symbols that a text can spell. -/
def isSpelled : Symbol → Bool
  | identifier x => isName x
  | integer digits => (Decimal.natural? digits.toList).isSome
  | keyword _ | punct _ | binary _ | not => true
  | endOfText | error _ => false

@[simp] theorem isSpelled_identifier (x : String) : (identifier x).isSpelled = isName x := rfl

@[simp] theorem isSpelled_keyword (k : Keyword) : (keyword k).isSpelled = true := rfl

@[simp] theorem isSpelled_punct (p : Punct) : (punct p).isSpelled = true := rfl

@[simp] theorem isSpelled_binary (op : BinaryOp) : (binary op).isSpelled = true := rfl

@[simp] theorem isSpelled_not : not.isSpelled = true := rfl

/-- Sequences of symbols that a text can spell. -/
def AreSpelled (ss : List Symbol) : Prop := ∀ s ∈ ss, s.isSpelled = true

@[simp] theorem areSpelled_nil : AreSpelled [] := List.forall_mem_nil _

@[simp] theorem areSpelled_cons {s : Symbol} {ss : List Symbol} :
    AreSpelled (s :: ss) ↔ s.isSpelled = true ∧ AreSpelled ss := List.forall_mem_cons

@[simp] theorem areSpelled_append {ss ss' : List Symbol} :
    AreSpelled (ss ++ ss') ↔ AreSpelled ss ∧ AreSpelled ss' := List.forall_mem_append

/-- The text of a sequence of symbols, one blank between each two of them. -/
def spaced (ss : List Symbol) : String := " ".intercalate (ss.map text)

theorem toList_spaced_singleton (s : Symbol) : (spaced [s]).toList = s.text.toList := by
  simp [spaced]

theorem toList_spaced_cons_cons (s t : Symbol) (ss : List Symbol) :
    (spaced (s :: t :: ss)).toList = s.text.toList ++ ' ' :: (spaced (t :: ss)).toList := by
  simp [spaced]

end Symbol

namespace Scan

/-- What may follow a symbol in a spaced text. -/
inductive Stops : List Char → Prop
  | nil : Stops []
  | blank {cs} : Stops (' ' :: cs)

theorem Stops.breaks {p : Char → Bool} (hblank : p ' ' = false) {rest : List Char}
    (hrest : Stops rest) : Breaks p rest := by
  cases hrest with
  | nil => exact nofun
  | blank =>
    intro c hc
    cases hc
    exact hblank

theorem standing_of_isSpelled {s : Symbol} (hs : s.isSpelled = true) {rest : List Char}
    (hrest : Stops rest) : Standing s rest := by
  cases s with
  | endOfText | error => cases hs
  | identifier x => exact ⟨hs, hrest.breaks (by decide)⟩
  | integer digits => exact ⟨hs, hrest.breaks (by decide)⟩
  | keyword k => exact hrest.breaks (by decide)
  | punct p =>
    cases p with
    | assign => exact hrest.breaks (by decide)
    | _ => trivial
  | binary op =>
    cases op with
    | lt | gt | div => exact hrest.breaks (by decide)
    | _ => trivial
  | not => exact hrest.breaks (by decide)

theorem Starts.tokensFrom {s : Symbol} {cs rest : List Char} (h : Starts s cs rest) (last n : Nat) :
    tokensFrom last n cs = ⟨s, .line n⟩ :: tokensFrom last n rest := by
  obtain ⟨c, ds, rfl, hlexeme⟩ := h.lexeme
  rw [tokensFrom_of_symbol (h.gap n), hlexeme]

theorem tokensFrom_nil (last n : Nat) : tokensFrom last n [] = [⟨.endOfText, .line last⟩] :=
  tokensFrom_of_nothing rfl

theorem tokensFrom_blank (last n : Nat) (cs : List Char) :
    tokensFrom last n (' ' :: cs) = tokensFrom last n cs := by
  rw [Scan.tokensFrom, Scan.tokensFrom.eq_1 last n cs]
  rfl

/-- A spaced text has its symbols as tokens, all on the line where it starts. -/
theorem tokensFrom_spaced (last n : Nat) {ss : List Symbol} (hss : Symbol.AreSpelled ss) :
    tokensFrom last n (Symbol.spaced ss).toList = ss.map (⟨·, .line n⟩) ++
      [⟨.endOfText, .line last⟩] := by
  induction ss with
  | nil => exact tokensFrom_nil last n
  | cons s ss ih =>
    rw [Symbol.areSpelled_cons] at hss
    have htail := ih hss.2
    cases ss with
    | nil =>
      have hstarts := (starts_text (standing_of_isSpelled hss.1 .nil)).tokensFrom last n
      rw [List.append_nil, tokensFrom_nil] at hstarts
      rw [Symbol.toList_spaced_singleton, hstarts]
      rfl
    | cons t ss =>
      rw [Symbol.toList_spaced_cons_cons,
        (starts_text (standing_of_isSpelled hss.1 .blank)).tokensFrom last n, tokensFrom_blank,
        htail]
      rfl

theorem ascii_of_isWord {x : String} (h : isWord x = true) : ∀ c ∈ x.toList, c.toNat ≤ 127 :=
  fun c hc => toNat_le_of_isWordChar (isWordChar_of_mem h c hc)

theorem ascii_of_all {cs : List Char}
    (h : cs.all (·.toNat ≤ 127) = true) : ∀ c ∈ cs, c.toNat ≤ 127 := by
  simpa only [List.all_eq_true, decide_eq_true_eq] using h

theorem ascii_of_isSpelled {s : Symbol}
    (hs : s.isSpelled = true) : ∀ c ∈ s.text.toList, c.toNat ≤ 127 := by
  cases s with
  | endOfText => cases hs
  | error fault => cases hs
  | identifier x =>
    rw [Symbol.isSpelled, isName, Bool.and_eq_true] at hs
    exact ascii_of_isWord hs.1
  | integer digits =>
    intro d hd
    have hdigit := isDigit_of_mem hs d hd
    rw [isDigit_iff] at hdigit
    omega
  | keyword k => cases k <;> exact ascii_of_all (by decide)
  | punct p => cases p <;> exact ascii_of_all (by decide)
  | binary op => cases op <;> exact ascii_of_all (by decide)
  | not => exact ascii_of_all (by decide)

theorem ascii_of_spaced {ss : List Symbol} (hss : Symbol.AreSpelled ss) :
    ∀ c ∈ (Symbol.spaced ss).toList, c.toNat ≤ 127 := by
  induction ss with
  | nil => exact List.forall_mem_nil _
  | cons s ss ih =>
    rw [Symbol.areSpelled_cons] at hss
    have hs := ascii_of_isSpelled hss.1
    have htail := ih hss.2
    cases ss with
    | nil =>
      rw [Symbol.toList_spaced_singleton]
      exact hs
    | cons t ss =>
      rw [Symbol.toList_spaced_cons_cons]
      exact List.forall_mem_append.mpr ⟨hs, List.forall_mem_cons.mpr ⟨by decide, htail⟩⟩

/-- Scanning undoes spacing. -/
theorem tokens_spaced {ss : List Symbol} (hss : Symbol.AreSpelled ss) :
    ∃ last, tokens (Bytes.ofString (Symbol.spaced ss)) = ss.map (⟨·, .line 1⟩) ++
      [⟨.endOfText, .line last⟩] := by
  rw [tokens_eq, Bytes.toChars_ofString (ascii_of_spaced hss)]
  exact ⟨_, tokensFrom_spaced _ 1 hss⟩

theorem messages_spaced {ss : List Symbol} (hss : Symbol.AreSpelled ss) :
    messages (tokens (Bytes.ofString (Symbol.spaced ss))) = [] := by
  obtain ⟨last, htokens⟩ := tokens_spaced hss
  rw [messages, htokens, List.filterMap_eq_nil_iff]
  intro t ht
  rcases List.mem_append.mp ht with ht | ht
  · obtain ⟨s, hs, rfl⟩ := List.mem_map.mp ht
    have hspelled := hss s hs
    cases s with
    | error fault => cases hspelled
    | _ => rfl
  · cases List.mem_singleton.mp ht
    rfl

end Scan

end MiniJava
