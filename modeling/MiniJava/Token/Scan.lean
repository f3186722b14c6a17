import MiniJava.Text.Decimal
import MiniJava.Token.Symbol
/-!
The symbol that starts with a character: words, numbers and marks are as long as they can be.
-/
namespace MiniJava.Scan

open Decimal (isDigit)

def isLetter (c : Char) : Bool := ('a' ≤ c && c ≤ 'z') || ('A' ≤ c && c ≤ 'Z')

def isUnderscore (c : Char) : Bool := c == '_'

def isWordChar (c : Char) : Bool := isLetter c || isUnderscore c || isDigit c

/-- The characters that may stand between symbols. -/
def isBlank (c : Char) : Bool := c == ' ' || c == '\t' || c == '\n' || c == '\r' || c == '\x0c'

/-- A keyword if the word is reserved, else an identifier. -/
def wordSymbol (word : String) : Symbol :=
  match Keyword.ofText? word with
  | some k => .keyword k
  | none => .identifier word

/-- `double` if the next character is `second`, else `single`. -/
def oneOrTwo (second : Char) (single double : Symbol) : List Char → Symbol × List Char
  | c :: cs => if c = second then (double, cs) else (single, c :: cs)
  | [] => (single, [])

/-- The number or word that starts with `c`; any other character stands for itself. -/
def longestRun (c : Char) (cs : List Char) : Symbol × List Char :=
  if isDigit c then
    (.integer (String.ofList (c :: cs.takeWhile isDigit)), cs.dropWhile isDigit)
  else if isLetter c then
    (wordSymbol (String.ofList (c :: cs.takeWhile isWordChar)), cs.dropWhile isWordChar)
  else (.error (.unrecognized c), cs)

/-- The symbol that starts with `c`, and what follows it. -/
def lexeme (c : Char) (cs : List Char) : Symbol × List Char :=
  match c with
  | '\x7b' => (.punct .leftBrace, cs)
  | '\x7d' => (.punct .rightBrace, cs)
  | '(' => (.punct .leftParen, cs)
  | ')' => (.punct .rightParen, cs)
  | '[' => (.punct .leftBracket, cs)
  | ']' => (.punct .rightBracket, cs)
  | '.' => (.punct .dot, cs)
  | ',' => (.punct .comma, cs)
  | ';' => (.punct .semicolon, cs)
  | '+' => (.binary .add, cs)
  | '-' => (.binary .sub, cs)
  | '*' => (.binary .mul, cs)
  | '/' => (.binary .div, cs)
  | '<' => oneOrTwo '=' (.binary .lt) (.binary .le) cs
  | '>' => oneOrTwo '=' (.binary .gt) (.binary .ge) cs
  | '=' => oneOrTwo '=' (.punct .assign) (.binary .eq) cs
  | '!' => oneOrTwo '=' .not (.binary .ne) cs
  | '&' => oneOrTwo '&' (.error (.incomplete '&')) (.binary .and) cs
  | '|' => oneOrTwo '|' (.error (.incomplete '|')) (.binary .or) cs
  | _ => longestRun c cs

theorem length_oneOrTwo_le (second : Char) (single double : Symbol) (cs : List Char) :
    (oneOrTwo second single double cs).2.length ≤ cs.length := by
  cases cs with
  | nil => simp [oneOrTwo]
  | cons c cs => simp only [oneOrTwo]; split <;> simp

theorem length_longestRun_le (c : Char)
    (cs : List Char) : (longestRun c cs).2.length ≤ cs.length := by
  unfold longestRun
  split
  · exact (List.dropWhile_suffix _).length_le
  · split
    · exact (List.dropWhile_suffix _).length_le
    · exact Nat.le_refl _

theorem length_lexeme_le (c : Char) (cs : List Char) : (lexeme c cs).2.length ≤ cs.length := by
  fun_cases lexeme c cs <;> simp [length_oneOrTwo_le, length_longestRun_le]

def messages (ts : List Token) : List Message := ts.filterMap Token.message?

end MiniJava.Scan
