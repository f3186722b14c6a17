import MiniJava.Token.Scan
/-!
The scanner. It holds one line at a time and loads the next one when the line is used up; each call
gives one token.
-/
namespace MiniJava.Scan

/-- The first line of a text, its line end included, and the text behind it. -/
def cutLine : List Char → List Char × List Char
  | [] => ([], [])
  | c :: cs => if c = '\n' then ([c], cs) else (c :: (cutLine cs).1, (cutLine cs).2)

theorem cutLine_append (cs : List Char) : (cutLine cs).1 ++ (cutLine cs).2 = cs := by
  fun_induction cutLine cs with
  | case1 => rfl
  | case2 => rfl
  | case3 c cs _ ih => exact congrArg (c :: ·) ih

theorem cutLine_ne_nil {cs : List Char} (h : cs ≠ []) : (cutLine cs).1 ≠ [] := by
  fun_cases cutLine cs with
  | case1 => exact absurd rfl h
  | case2 | case3 => exact List.cons_ne_nil _ _

/-- What a scanner holds between two calls: the text that is not loaded, what is left of the line
with its number, and what was reported. -/
structure Scanner where
  unread : List Char
  line : List Char := []
  number : Nat := 0
  ended : Bool := false
  log : List Message := []

namespace Scanner

def ofSource (source : Bytes) : Scanner := { unread := source.toChars }

/-- Loads the next line; the text has ended if there is none. -/
def nextLine (s : Scanner) : Scanner :=
  if s.unread = [] then { s with line := [], ended := true }
  else
    { s with
      unread := (cutLine s.unread).2, line := (cutLine s.unread).1, number := s.number + 1 }

/-- A character counts more before it is loaded than after. -/
def size (s : Scanner) : Nat := 2 * s.unread.length + s.line.length + if s.ended then 0 else 1

section Size

variable {s : Scanner}

theorem size_tail {c : Char} {cs line : List Char} (hline : s.line = c :: cs)
    (hle : line.length ≤ cs.length) : { s with line }.size < s.size := by
  simp only [size, hline, List.length_cons]
  omega

theorem size_nextLine_le (hline : s.line = []) : s.nextLine.size ≤ s.size := by
  have hlength := congrArg List.length (cutLine_append s.unread)
  rw [List.length_append] at hlength
  unfold nextLine
  split
  · simp [size, hline]
  · simp only [size, hline, List.length_nil]
    omega

theorem size_nextLine_lt (hline : s.line = []) (hended : s.ended = false) :
    s.nextLine.size < s.size := by
  unfold nextLine
  split
  · rename_i hnone
    simp [size, hline, hended, hnone]
  · rename_i hsome
    have hlength := congrArg List.length (cutLine_append s.unread)
    have hpos := List.length_pos_iff.mpr (cutLine_ne_nil hsome)
    rw [List.length_append] at hlength
    simp only [size, hline, List.length_nil]
    omega

theorem ended_of_nextLine (h : ¬ s.nextLine.ended = true) : s.ended = false := by
  unfold nextLine at h
  split at h
  · exact absurd rfl h
  · exact Bool.eq_false_iff.mpr h

end Size

/-- Steps behind the end of a block comment, on whichever line it is; the result tells whether it
was found. -/
def closeComment (s : Scanner) : Bool × Scanner :=
  match _hline : s.line with
  | '*' :: '/' :: cs => (true, { s with line := cs })
  | _ :: cs => closeComment { s with line := cs }
  | [] => if _hended : s.nextLine.ended then (false, s.nextLine) else closeComment s.nextLine
termination_by s.size
decreasing_by
  · exact size_tail _hline (Nat.le_refl _)
  · exact size_nextLine_lt _hline (ended_of_nextLine _hended)

theorem size_closeComment_le (s : Scanner) : s.closeComment.2.size ≤ s.size := by
  fun_induction closeComment s with
  | case1 s cs hline => exact Nat.le_of_lt (size_tail hline (Nat.le_succ _))
  | case2 s c cs _ hline ih =>
    exact Nat.le_trans ih (Nat.le_of_lt (size_tail hline (Nat.le_refl _)))
  | case3 s hline => exact size_nextLine_le hline
  | case4 s hline _ ih => exact Nat.le_trans ih (size_nextLine_le hline)

/-- A block comment has two characters before what it ends with. -/
theorem size_closeComment_lt {s t : Scanner} {cs : List Char} {closed : Bool}
    (hline : s.line = '/' :: '*' :: cs)
    (hclose : closeComment { s with line := cs } = (closed, t)) : t.size < s.size := by
  have hle := size_closeComment_le { s with line := cs }
  rw [hclose] at hle
  exact Nat.lt_of_le_of_lt hle (size_tail hline (Nat.le_succ _))

/-- Steps over blanks and comments, up to a symbol or the end of the text. A comment that is not
closed is told by the line on which it opens. -/
def skip (s : Scanner) : Option Nat × Scanner :=
  if _hended : s.ended then (none, s)
  else
    match _hline : s.line with
    | [] => skip s.nextLine
    | '/' :: '/' :: _ => skip { s with line := [] }
    | '/' :: '*' :: cs =>
      match _hclose : closeComment { s with line := cs } with
      | (true, t) => skip t
      | (false, t) => (some s.number, t)
    | c :: cs => if isBlank c then skip { s with line := cs } else (none, s)
termination_by s.size
decreasing_by
  · exact size_nextLine_lt _hline (Bool.eq_false_iff.mpr _hended)
  · exact size_tail _hline (Nat.zero_le _)
  · exact size_closeComment_lt _hline _hclose
  · exact size_tail _hline (Nat.le_refl _)

/-- Skipping never goes back, and goes ahead where it finds a comment that is not closed. -/
theorem size_skip (s : Scanner) : s.skip.2.size + s.skip.1.toList.length ≤ s.size := by
  fun_induction skip s with
  | case1 => exact Nat.le_refl _
  | case2 s _ hline ih => exact Nat.le_trans ih (size_nextLine_le hline)
  | case3 s _ cs hline ih => exact Nat.le_trans ih (Nat.le_of_lt (size_tail hline (Nat.zero_le _)))
  | case4 s _ cs hline t hclose ih =>
    exact Nat.le_trans ih (Nat.le_of_lt (size_closeComment_lt hline hclose))
  | case5 s _ cs hline t hclose => exact size_closeComment_lt hline hclose
  | case6 s _ c cs _ _ hline _ ih =>
    exact Nat.le_trans ih (Nat.le_of_lt (size_tail hline (Nat.le_refl _)))
  | case7 => exact Nat.le_refl _

/-- The next token and the scanner behind it. -/
def find (s : Scanner) : Token × Scanner :=
  match s.skip with
  | (some opened, t) => (⟨.error .unclosedComment, .line opened⟩, t)
  | (none, t) =>
    match t.line with
    | [] => (⟨.endOfText, .line t.number⟩, t)
    | c :: cs => (⟨(lexeme c cs).1, .line t.number⟩, { t with line := (lexeme c cs).2 })

theorem size_find_lt {s : Scanner} (h : s.find.1.symbol ≠ .endOfText) : s.find.2.size < s.size := by
  have hsize := s.size_skip
  unfold find at h ⊢
  generalize s.skip = r at h hsize ⊢
  rcases r with ⟨opened | opened, t⟩
  · cases hline : t.line with
    | nil =>
      simp only [hline] at h
      exact absurd rfl h
    | cons c cs =>
      simp only [hline]
      exact Nat.lt_of_lt_of_le (size_tail hline (length_lexeme_le c cs)) hsize
  · exact hsize

/-- One call: the next token, which is reported if it is an error. -/
def call (s : Scanner) : Token × Scanner :=
  (s.find.1, { s.find.2 with log := s.log ++ s.find.1.message?.toList })

/-- The tokens of the calls to come, up to the end of the text. -/
def tokens (s : Scanner) : List Token :=
  if _hend : s.call.1.symbol = .endOfText then [s.call.1] else s.call.1 :: s.call.2.tokens
termination_by s.size
decreasing_by exact size_find_lt _hend

end Scanner

/-- The tokens of a source. -/
def tokens (source : Bytes) : List Token := (Scanner.ofSource source).tokens

end MiniJava.Scan
