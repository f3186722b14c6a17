import MiniJava.Proofs.Token.Lexeme
/-!
How a text falls into symbols and the gaps between them. The scanner finds the one way in which it
can: every character belongs to a symbol or to a gap, and the line of a symbol is given by the line
ends in front of it.
-/
namespace MiniJava.Scan

/-- No block comment is closed in the text. -/
def Unended (body : List Char) : Prop := ¬ ['*', '/'] <:+: body

/-- Blanks, line comments up to the line end and closed block comments. The first `*/` closes a
comment, so none is in its body, nor begins with the last character of the body. -/
inductive Gap : List Char → Prop
  | nil : Gap []
  | blank {c : Char} {g : List Char} : isBlank c = true → Gap g → Gap ([c] ++ g)
  | line {body g : List Char} : '\n' ∉ body → Gap g → Gap ('/' :: '/' :: body ++ ['\n'] ++ g)
  | block {body g : List Char} : Unended (body ++ ['*']) → Gap g →
      Gap ('/' :: '*' :: body ++ ['*', '/'] ++ g)

/-- A gap at the end of a text, where a line comment may lack the line end. -/
def LastGap (cs : List Char) : Prop :=
  Gap cs ∨ ∃ g body, Gap g ∧ '\n' ∉ body ∧ cs = g ++ '/' :: '/' :: body

/-- The number of the line on which the character after a text stands. -/
def lineBehind (before : List Char) : Nat := 1 + before.count '\n'

/-- The text `cs`, which stands behind `before`, consists of gaps and the symbols of `ts` between
them. Each symbol is there in its own characters and is not continued by what follows it, and its
token has the line on which it stands. A comment that is not closed takes the rest of the text and
is a token on the line where it opens. -/
inductive Splits : (before cs : List Char) → List Token → Prop
  | last {before cs : List Char} : LastGap cs → Splits before cs []
  | unclosed {before g body : List Char} : Gap g → Unended body →
      Splits before (g ++ '/' :: '*' :: body)
        [⟨.error .unclosedComment, .line (lineBehind (before ++ g))⟩]
  | symbol {before g rest : List Char} {s : Symbol} {ts : List Token} : Gap g → Standing s rest →
      Splits (before ++ g ++ s.text.toList) rest ts →
      Splits before (g ++ s.text.toList ++ rest) (⟨s, .line (lineBehind (before ++ g))⟩ :: ts)

section Comments

variable {body cs : List Char} {n opened : Nat}

theorem skipGap_line (hbody : '\n' ∉ body) :
    skipGap .lineComment n (body ++ ['\n'] ++ cs) = skipGap .blank (n + 1) cs := by
  induction body with
  | nil => rfl
  | cons c body ih =>
    rw [List.mem_cons, not_or] at hbody
    rw [List.cons_append, List.cons_append, skipGap, if_neg (Ne.symm hbody.1)]
    exact ih hbody.2

theorem skipGap_lastLine (hbody : '\n' ∉ body) : skipGap .lineComment n body = .before n [] := by
  induction body with
  | nil => rfl
  | cons c body ih =>
    rw [List.mem_cons, not_or] at hbody
    rw [skipGap, if_neg (Ne.symm hbody.1)]
    exact ih hbody.2

theorem lineAfter_eq (n : Nat) (c : Char) : lineAfter n c = n + [c].count '\n' := by
  by_cases hc : c = '\n'
  · subst hc
    rfl
  · rw [lineAfter, if_neg hc, List.count_singleton, if_neg (by simpa using hc)]
    rfl

/-- A step inside a block comment that does not end it. -/
theorem skipGap_inside {c : Char} (hopen : c = '*' → ∀ ds, cs ≠ '/' :: ds) :
    skipGap (.blockComment opened) n (c :: cs) = skipGap (.blockComment opened) (lineAfter n c)
      cs := by
  rw [skipGap]
  intro ds hc hds
  exact hopen hc ds hds

theorem unended_cons {c : Char} (h : Unended (c :: cs)) :
    Unended cs ∧ (c = '*' → ∀ ds, cs ≠ '/' :: ds) := by
  rw [Unended, List.infix_cons_iff, not_or] at h
  refine ⟨h.2, ?_⟩
  rintro rfl ds rfl
  exact h.1 ⟨ds, rfl⟩

theorem skipGap_block (hbody : Unended (body ++ ['*'])) :
    skipGap (.blockComment opened) n (body ++ ['*', '/'] ++ cs) =
      skipGap .blank (n + body.count '\n') cs := by
  induction body generalizing n with
  | nil => rfl
  | cons c body ih =>
    obtain ⟨htail, hopen⟩ := unended_cons hbody
    have hnext : c = '*' → ∀ ds, body ++ ['*', '/'] ++ cs ≠ '/' :: ds := by
      intro hc ds heq
      cases body with
      | nil => cases heq
      | cons d body =>
        cases heq
        exact hopen hc _ rfl
    rw [List.cons_append, List.cons_append, skipGap_inside hnext, ih htail, lineAfter_eq,
      Nat.add_assoc, ← List.count_append]
    rfl

theorem skipGap_unended (hbody : Unended body) :
    skipGap (.blockComment opened) n body = .unclosed opened := by
  induction body generalizing n with
  | nil => rfl
  | cons c body ih =>
    obtain ⟨htail, hopen⟩ := unended_cons hbody
    rw [skipGap_inside hopen]
    exact ih htail

theorem exists_line (cs : List Char) :
    '\n' ∉ cs ∨ ∃ body rest, '\n' ∉ body ∧ cs = body ++ ['\n'] ++ rest := by
  by_cases hmem : '\n' ∈ cs
  · obtain ⟨body, rest, heq, hbody⟩ := List.eq_append_cons_of_mem hmem
    exact .inr ⟨body, rest, hbody, by simp [heq]⟩
  · exact .inl hmem

theorem exists_block (cs : List Char) :
    Unended cs ∨ ∃ body rest, Unended (body ++ ['*']) ∧ cs = body ++ ['*', '/'] ++ rest := by
  induction cs with
  | nil => exact .inl (by simp [Unended])
  | cons c cs ih =>
    by_cases hclose : ['*', '/'] <+: c :: cs
    · obtain ⟨rest, heq⟩ := hclose
      exact .inr ⟨[], rest, by simp [Unended, List.infix_cons_iff], heq.symm⟩
    · rcases ih with hnone | ⟨body, rest, hbody, rfl⟩
      · refine .inl ?_
        rw [Unended, List.infix_cons_iff, not_or]
        exact ⟨hclose, hnone⟩
      · refine .inr ⟨c :: body, rest, ?_, rfl⟩
        rw [List.cons_append, Unended, List.infix_cons_iff, not_or]
        refine ⟨fun hprefix => hclose ?_, hbody⟩
        have hlonger : c :: (body ++ ['*']) <+: c :: (body ++ ['*', '/'] ++ rest) := by
          refine ⟨'/' :: rest, ?_⟩
          simp
        exact hprefix.trans hlonger

end Comments

theorem skipGap_blank {c : Char} (hc : isBlank c = true) (n : Nat) (cs : List Char) :
    skipGap .blank n (c :: cs) = skipGap .blank (lineAfter n c) cs := by
  rw [skipGap, if_pos hc]
  · rintro ds rfl -
    exact absurd hc (by decide)
  · rintro ds rfl -
    exact absurd hc (by decide)

/-- What stands in front of a symbol is skipped as a gap, and its line ends are counted. -/
theorem Gap.skip {g : List Char} (hg : Gap g) (n : Nat) (cs : List Char) :
    skipGap .blank n (g ++ cs) = skipGap .blank (n + g.count '\n') cs := by
  induction hg generalizing n with
  | nil => rfl
  | @blank c g hc _ ih =>
    rw [List.append_assoc, List.singleton_append, skipGap_blank hc, ih, lineAfter_eq,
      List.count_append, Nat.add_assoc]
  | @line body g hbody _ ih =>
    have hstep : skipGap .blank n ('/' :: '/' :: body ++ ['\n'] ++ (g ++ cs)) =
        skipGap .blank (n + 1) (g ++ cs) := skipGap_line hbody
    have hnone : body.count '\n' = 0 := List.count_eq_zero.mpr hbody
    rw [List.append_assoc, hstep, ih]
    congr 1
    simp [hnone]
    omega
  | @block body g hbody _ ih =>
    have hstep : skipGap .blank n ('/' :: '*' :: body ++ ['*', '/'] ++ (g ++ cs)) =
        skipGap .blank (n + body.count '\n') (g ++ cs) := skipGap_block hbody
    rw [List.append_assoc, hstep, ih]
    congr 1
    simp
    omega

/-- What the scanner finds behind a gap in the text `cs`, the first line of which has the number
`n`. -/
inductive Found (n : Nat) (cs : List Char) : GapEnd → Prop
  | symbol {g rest : List Char} {c : Char} : Gap g → cs = g ++ c :: rest → isBlank c = false →
      (c = '/' → Breaks opensComment rest) → Found n cs (.before (n + g.count '\n') (c :: rest))
  | nothing {m : Nat} : LastGap cs → Found n cs (.before m [])
  | unclosed {g body : List Char} : Gap g → Unended body → cs = g ++ '/' :: '*' :: body →
      Found n cs (.unclosed (n + g.count '\n'))

/-- A piece that can stand in front of every gap changes nothing but the line. -/
theorem Found.behind {piece cs : List Char} {n : Nat} {e : GapEnd}
    (hpiece : ∀ {g}, Gap g → Gap (piece ++ g))
    (h : Found (n + piece.count '\n') cs e) : Found n (piece ++ cs) e := by
  cases h with
  | @symbol g rest c hg hcs hblank hcomment =>
    have hfound : Found n (piece ++ cs) (.before (n + (piece ++ g).count '\n') (c :: rest)) :=
      .symbol (hpiece hg) (by rw [hcs, List.append_assoc]) hblank hcomment
    rwa [List.count_append, ← Nat.add_assoc] at hfound
  | nothing hlast =>
    apply Found.nothing
    rcases hlast with hg | ⟨g, body, hg, hbody, rfl⟩
    · exact .inl (hpiece hg)
    · exact .inr ⟨piece ++ g, body, hpiece hg, hbody, by rw [List.append_assoc]⟩
  | @unclosed g body hg hbody hcs =>
    have hfound : Found n (piece ++ cs) (.unclosed (n + (piece ++ g).count '\n')) :=
      .unclosed (hpiece hg) hbody (by rw [hcs, List.append_assoc])
    rwa [List.count_append, ← Nat.add_assoc] at hfound

/-- A slash that does not stand for itself starts a comment. -/
theorem exists_comment {c : Char} {cs : List Char} (h : ¬ (c = '/' → Breaks opensComment cs)) :
    c = '/' ∧ ∃ ds, cs = '/' :: ds ∨ cs = '*' :: ds := by
  rw [Classical.not_imp] at h
  refine ⟨h.1, ?_⟩
  cases cs with
  | nil => exact absurd nofun h.2
  | cons d ds =>
    by_cases hopens : opensComment d = true
    · rw [opensComment, Bool.or_eq_true, beq_iff_eq, beq_iff_eq] at hopens
      exact ⟨ds, hopens.imp (congrArg (· :: ds)) (congrArg (· :: ds))⟩
    · refine absurd (fun e he => ?_) h.2
      cases he
      exact Bool.eq_false_iff.mpr hopens

/-- The scanner skips gaps only. -/
theorem found_skipGap (n : Nat) (cs : List Char) : Found n cs (skipGap .blank n cs) := by
  induction hlength : cs.length using Nat.strongRecOn generalizing n cs with
  | ind k ih =>
    subst hlength
    have hbehind (piece rest : List Char) (hpiece : ∀ {g}, Gap g → Gap (piece ++ g))
        (hshort : rest.length < cs.length)
        (hcs : cs = piece ++ rest) : Found n cs (skipGap .blank n cs) := by
      have hskip := (hpiece .nil).skip n rest
      rw [List.append_nil] at hskip
      rw [hcs, hskip]
      exact (ih _ hshort _ _ rfl).behind hpiece
    cases cs with
    | nil => exact .nothing (.inl .nil)
    | cons c cs =>
      by_cases hblank : isBlank c = true
      · exact hbehind [c] cs (.blank hblank) (by simp) rfl
      · rw [Bool.not_eq_true] at hblank
        by_cases hcomment : c = '/' → Breaks opensComment cs
        · rw [skipGap_symbol hblank hcomment]
          exact .symbol .nil rfl hblank hcomment
        · obtain ⟨rfl, ds, rfl | rfl⟩ := exists_comment hcomment
          · rcases exists_line ds with hbody | ⟨body, rest, hbody, rfl⟩
            · have hskip : skipGap .blank n ('/' :: '/' :: ds) = .before n [] :=
                skipGap_lastLine hbody
              rw [hskip]
              exact .nothing (.inr ⟨[], ds, .nil, hbody, rfl⟩)
            · exact hbehind ('/' :: '/' :: body ++ ['\n']) rest (.line hbody) (by simp; omega) rfl
          · rcases exists_block ds with hbody | ⟨body, rest, hbody, rfl⟩
            · have hskip : skipGap .blank n ('/' :: '*' :: ds) = .unclosed n :=
                skipGap_unended hbody
              rw [hskip]
              exact .unclosed .nil hbody rfl
            · exact hbehind ('/' :: '*' :: body ++ ['*', '/']) rest (.block hbody) (by simp; omega)
                rfl

section Tokens

variable {last : Nat}

theorem lineBehind_append (before cs : List Char) :
    lineBehind (before ++ cs) = lineBehind before + cs.count '\n' := by
  rw [lineBehind, lineBehind, List.count_append, Nat.add_assoc]

/-- The equations of the scanner, by what it finds behind a gap. -/
theorem tokensFrom_of_nothing {n m : Nat} {cs : List Char}
    (h : skipGap .blank n cs = .before m []) :
    tokensFrom last n cs = [⟨.endOfText, .line last⟩] := by
  rw [tokensFrom]
  split <;> rename_i heq
  · cases h.symm.trans heq
  · rfl
  · cases h.symm.trans heq

theorem tokensFrom_of_unclosed {n opened : Nat} {cs : List Char}
    (h : skipGap .blank n cs = .unclosed opened) :
    tokensFrom last n cs = [⟨.error .unclosedComment, .line opened⟩, ⟨.endOfText, .line last⟩] := by
  rw [tokensFrom]
  split <;> rename_i heq
  · cases h.symm.trans heq
    rfl
  · cases h.symm.trans heq
  · cases h.symm.trans heq

theorem tokensFrom_of_symbol {n m : Nat} {cs rest : List Char} {c : Char}
    (h : skipGap .blank n cs = .before m (c :: rest)) :
    tokensFrom last n cs = ⟨(lexeme c rest).1, .line m⟩ :: tokensFrom last m (lexeme c rest).2 := by
  rw [tokensFrom]
  split <;> rename_i heq
  · cases h.symm.trans heq
  · cases h.symm.trans heq
  · cases h.symm.trans heq
    rfl

theorem LastGap.skip {cs : List Char} (h : LastGap cs) (n : Nat) :
    ∃ m, skipGap .blank n cs = .before m [] := by
  rcases h with hg | ⟨g, body, hg, hbody, rfl⟩
  · have hskip := hg.skip n []
    rw [List.append_nil] at hskip
    exact ⟨_, hskip⟩
  · rw [hg.skip]
    exact ⟨_, skipGap_lastLine hbody⟩

/-- A text that is split has the tokens of its symbols. -/
theorem Splits.tokensFrom {before cs : List Char} {ts : List Token} (h : Splits before cs ts) :
    tokensFrom last (lineBehind before) cs = ts ++ [⟨.endOfText, .line last⟩] := by
  induction h with
  | last hlast =>
    obtain ⟨m, hm⟩ := hlast.skip (lineBehind _)
    exact tokensFrom_of_nothing hm
  | @unclosed before g body hg hbody =>
    rw [lineBehind_append]
    apply tokensFrom_of_unclosed
    rw [hg.skip]
    exact skipGap_unended hbody
  | @symbol before g rest s ts hg hs _ ih =>
    obtain ⟨hgap, c, ds, hcs, hlexeme⟩ := starts_text hs
    have hskip : skipGap .blank (lineBehind before) (g ++ s.text.toList ++ rest) =
        .before (lineBehind (before ++ g)) (c :: ds) := by
      rw [List.append_assoc, hg.skip, ← lineBehind_append, hgap, hcs]
    rw [tokensFrom_of_symbol hskip, hlexeme]
    rw [lineBehind_append (before ++ g), List.count_eq_zero.mpr (newline_not_mem_text hs),
      Nat.add_zero] at ih
    rw [ih]
    rfl

theorem exists_splits (before cs : List Char) : ∃ ts, Splits before cs ts := by
  induction hlength : cs.length using Nat.strongRecOn generalizing before cs with
  | ind k ih =>
    subst hlength
    generalize hend : skipGap .blank 1 cs = e
    have hfound := found_skipGap 1 cs
    rw [hend] at hfound
    cases hfound with
    | nothing hlast => exact ⟨[], .last hlast⟩
    | unclosed hg hbody hcs =>
      subst hcs
      exact ⟨_, .unclosed hg hbody⟩
    | @symbol g rest c hg hcs hblank hcomment =>
      obtain ⟨hstanding, htext⟩ := lexeme_standing hblank hcomment
      have hshort := length_lexeme_le c rest
      subst hcs
      obtain ⟨ts, hts⟩ := ih (lexeme c rest).2.length (by simp; omega)
        (before ++ g ++ (lexeme c rest).1.text.toList) _ rfl
      rw [htext, ← List.append_assoc]
      exact ⟨_, .symbol hg hstanding hts⟩

end Tokens

section Lines

variable {before cs : List Char} {ts : List Token}

theorem lineBehind_le (before cs : List Char) : lineBehind before ≤ lineBehind (before ++ cs) := by
  rw [lineBehind_append]
  exact Nat.le_add_right _ _

/-- Every character stands on a line of the text. -/
theorem lineBehind_le_lineCount (c : Char) (before cs : List Char) :
    lineBehind before ≤ lineCount (before ++ c :: cs) := by
  have hlast : (before ++ c :: cs).getLast? = some ((c :: cs).getLast (List.cons_ne_nil c cs)) := by
    rw [List.getLast?_append, List.getLast?_eq_some_getLast (List.cons_ne_nil c cs), Option.some_or]
  rw [lineCount, hlast, lineBehind, List.count_append]
  by_cases hend : (c :: cs).getLast (List.cons_ne_nil c cs) = '\n'
  · have hmem : '\n' ∈ c :: cs := hend ▸ List.getLast_mem _
    have hpos := List.count_pos_iff.mpr hmem
    simp only [hend, if_true]
    omega
  · simp only [hend, if_false]
    omega

/-- The tokens stand on lines of the text, in order. -/
theorem Splits.lines (h : Splits before cs ts) :
    (∀ t ∈ ts, ∃ k : Nat, t.span = .line k ∧ lineBehind before ≤ k ∧ k ≤ lineCount (before ++ cs)) ∧
      ts.Pairwise fun t u => t.span.first ≤ u.span.first := by
  induction h with
  | last => exact ⟨nofun, .nil⟩
  | @unclosed before g body =>
    have hline : lineBehind (before ++ g) ≤ lineCount (before ++ (g ++ '/' :: '*' :: body)) := by
      rw [← List.append_assoc]
      exact lineBehind_le_lineCount _ _ _
    exact ⟨List.forall_mem_singleton.mpr ⟨_, rfl, lineBehind_le _ _, hline⟩,
      List.pairwise_singleton _ _⟩
  | @symbol before g rest s ts _ hs _ ih =>
    obtain ⟨hlines, hsorted⟩ := ih
    have hassoc :
        before ++ g ++ s.text.toList ++ rest = before ++ (g ++ s.text.toList ++ rest) := by
      simp
    rw [hassoc] at hlines
    have hhead : lineBehind (before ++ g) ≤ lineCount (before ++ (g ++ s.text.toList ++ rest)) := by
      rw [← hassoc]
      cases htext : s.text.toList with
      | nil => exact absurd htext (text_ne_nil hs)
      | cons c ds =>
        rw [List.append_assoc, List.cons_append]
        exact lineBehind_le_lineCount _ _ _
    refine ⟨List.forall_mem_cons.mpr ⟨⟨_, rfl, lineBehind_le _ _, hhead⟩, fun t ht => ?_⟩, ?_⟩
    · obtain ⟨k, hspan, hlow, hhigh⟩ := hlines t ht
      refine ⟨k, hspan, ?_, hhigh⟩
      have hfirst := lineBehind_le before g
      have hsecond := lineBehind_le (before ++ g) s.text.toList
      omega
    · refine List.pairwise_cons.mpr ⟨fun t ht => ?_, hsorted⟩
      obtain ⟨k, hspan, hlow, -⟩ := hlines t ht
      have hsecond := lineBehind_le (before ++ g) s.text.toList
      rw [hspan]
      simp only [Span.line]
      omega

theorem Splits.length_le (h : Splits before cs ts) : ts.length ≤ cs.length := by
  induction h with
  | last => exact Nat.zero_le _
  | unclosed =>
    simp only [List.length_append, List.length_cons, List.length_nil]
    omega
  | @symbol before g rest s ts _ hs _ ih =>
    have hpos := List.length_pos_iff.mpr (text_ne_nil hs)
    simp only [List.length_cons, List.length_append]
    omega

theorem Splits.ne_endOfText (h : Splits before cs ts) : ∀ t ∈ ts, t.symbol ≠ .endOfText := by
  induction h with
  | last => exact nofun
  | unclosed => exact List.forall_mem_singleton.mpr Symbol.noConfusion
  | symbol _ hs _ ih =>
    refine List.forall_mem_cons.mpr ⟨?_, ih⟩
    rintro rfl
    exact hs

end Lines

end MiniJava.Scan
