import MiniJava.Token.Scanner
/-!
A text as a whole: the gaps of blanks and comments are dropped, and the line ends in front of a
symbol give its line.
-/
namespace MiniJava.Scan

/-- The number of the line after `c`, if `c` stands on line `n`. -/
def lineAfter (n : Nat) (c : Char) : Nat := if c = '\n' then n + 1 else n

/-- The number of lines of a text, an unfinished last line included. -/
def lineCount (cs : List Char) : Nat :=
  match cs.getLast? with
  | none => 0
  | some c => cs.count '\n' + if c = '\n' then 0 else 1

/-- Where a gap is being read: between symbols or in a comment, which remembers its first line. -/
inductive GapMode where
  | blank
  | lineComment
  | blockComment (opened : Nat)

/-- How a gap ends: before a symbol or the end of the text, or inside a comment. -/
inductive GapEnd where
  | before (line : Nat) (rest : List Char)
  | unclosed (opened : Nat)

def skipGap : GapMode → Nat → List Char → GapEnd
  | .blank, n, '/' :: '/' :: cs => skipGap .lineComment n cs
  | .blank, n, '/' :: '*' :: cs => skipGap (.blockComment n) n cs
  | .blank, n, c :: cs =>
    if isBlank c then skipGap .blank (lineAfter n c) cs else .before n (c :: cs)
  | .blank, n, [] => .before n []
  | .lineComment, n, c :: cs =>
    if c = '\n' then skipGap .blank (lineAfter n c) cs else skipGap .lineComment n cs
  | .lineComment, n, [] => .before n []
  | .blockComment _, n, '*' :: '/' :: cs => skipGap .blank n cs
  | .blockComment opened, n, c :: cs => skipGap (.blockComment opened) (lineAfter n c) cs
  | .blockComment opened, _, [] => .unclosed opened

theorem length_le_of_skipGap {mode : GapMode} {n m : Nat} {cs rest : List Char}
    (h : skipGap mode n cs = .before m rest) : rest.length ≤ cs.length := by
  fun_induction skipGap mode n cs <;> grind

/-- The tokens of a text whose current line is `n` and whose end is on line `last`. -/
def tokensFrom (last n : Nat) (cs : List Char) : List Token :=
  match _h : skipGap .blank n cs with
  | .unclosed opened => [⟨.error .unclosedComment, .line opened⟩, ⟨.endOfText, .line last⟩]
  | .before _ [] => [⟨.endOfText, .line last⟩]
  | .before m (c :: rest) => ⟨(lexeme c rest).1, .line m⟩ :: tokensFrom last m (lexeme c rest).2
termination_by cs.length
decreasing_by
  have h₁ := length_le_of_skipGap _h
  have h₂ := length_lexeme_le c rest
  simp only [List.length_cons] at h₁
  omega

end MiniJava.Scan
