import MiniJava.Text.Quoted
import MiniJava.Source.Message
/-!
The symbols of the language and tokens, which are symbols with their place in the source.
-/
namespace MiniJava

inductive Keyword where
  | trueWord | falseWord | nullWord | classWord | voidWord | publicWord | privateWord | staticWord
  | intWord | booleanWord | thisWord | returnWord | ifWord | whileWord | newWord | elseWord
  deriving DecidableEq, Repr

namespace Keyword

def text : Keyword → String
  | trueWord => "true"
  | falseWord => "false"
  | nullWord => "null"
  | classWord => "class"
  | voidWord => "void"
  | publicWord => "public"
  | privateWord => "private"
  | staticWord => "static"
  | intWord => "int"
  | booleanWord => "boolean"
  | thisWord => "this"
  | returnWord => "return"
  | ifWord => "if"
  | whileWord => "while"
  | newWord => "new"
  | elseWord => "else"

def all : List Keyword :=
  [trueWord, falseWord, nullWord, classWord, voidWord, publicWord, privateWord, staticWord,
   intWord, booleanWord, thisWord, returnWord, ifWord, whileWord, newWord, elseWord]

def ofText? (s : String) : Option Keyword := all.find? (·.text == s)

end Keyword

inductive Punct where
  | dot | comma | semicolon | leftParen | rightParen | leftBracket | rightBracket
  | leftBrace | rightBrace | assign
  deriving DecidableEq, Repr

def Punct.text : Punct → String
  | dot => "."
  | comma => ","
  | semicolon => ";"
  | leftParen => "("
  | rightParen => ")"
  | leftBracket => "["
  | rightBracket => "]"
  | leftBrace => "\x7b"
  | rightBrace => "\x7d"
  | assign => "="

inductive BinaryOp where
  | or | and | eq | ne | lt | le | gt | ge | add | sub | mul | div
  deriving DecidableEq, Repr

namespace BinaryOp

def text : BinaryOp → String
  | or => "||"
  | and => "&&"
  | eq => "=="
  | ne => "!="
  | lt => "<"
  | le => "<="
  | gt => ">"
  | ge => ">="
  | add => "+"
  | sub => "-"
  | mul => "*"
  | div => "/"

def all : List BinaryOp := [or, and, eq, ne, lt, le, gt, ge, add, sub, mul, div]

def ofText? (s : String) : Option BinaryOp := all.find? (·.text == s)

/-- How tightly an operator binds; all of them associate to the left. -/
def priority : BinaryOp → Nat
  | or => 1
  | and => 2
  | eq | ne => 3
  | lt | le | gt | ge => 4
  | add | sub => 5
  | mul | div => 6

/-- The priority of a spelling; one that is no operator binds least. -/
def priorityOf (s : String) : Nat := ((ofText? s).map priority).getD 0

end BinaryOp

inductive UnaryOp where
  | not | neg
  deriving DecidableEq, Repr

def UnaryOp.text : UnaryOp → String
  | not => "!"
  | neg => "-"

inductive ScanFault where
  | unrecognized (c : Char)
  | incomplete (c : Char)
  | unclosedComment
  deriving DecidableEq, Repr

namespace ScanFault

def text : ScanFault → String
  | unrecognized c => String.singleton c
  | incomplete c => String.singleton c
  | unclosedComment => "/*"

def message : ScanFault → String
  | unrecognized c => s!"Scan error: unrecognized character near {Quoted.text (String.singleton c)}"
  | incomplete c => s!"Scan error: incomplete operator near {Quoted.text (String.singleton c)}"
  | unclosedComment => "Scan error: unterminated comment"

end ScanFault

inductive Symbol where
  | endOfText
  | identifier (name : String)
  | integer (digits : String)
  | keyword (k : Keyword)
  | punct (p : Punct)
  | binary (op : BinaryOp)
  | not
  | error (fault : ScanFault)
  deriving DecidableEq, Repr

namespace Symbol

def text : Symbol → String
  | endOfText => ""
  | identifier name => name
  | integer digits => digits
  | keyword k => k.text
  | punct p => p.text
  | binary op => op.text
  | not => "!"
  | error fault => fault.text

def kindName : Symbol → String
  | endOfText => "end of text"
  | identifier _ => "identifier"
  | integer _ => "integer"
  | keyword k => k.text
  | punct p => p.text
  | binary _ => "binary operator"
  | not => "unary operator"
  | error _ => "error"

def describe : Symbol → String
  | endOfText => "end of text"
  | s => s.text

def isError : Symbol → Bool
  | error _ => true
  | _ => false

open Keyword in
/-- The names of all classes of symbols, in their fixed order. -/
def kindNames : List String :=
  let literals :=
    [endOfText, identifier "", integer "", keyword trueWord, keyword falseWord, keyword nullWord]
  let marks := [Punct.dot, .comma, .semicolon, .leftParen, .rightParen, .leftBracket, .rightBracket,
    .leftBrace, .rightBrace, .assign].map punct
  let words :=
    [classWord, voidWord, publicWord, privateWord, staticWord, intWord, booleanWord, thisWord,
    returnWord, ifWord, whileWord, newWord, elseWord].map keyword
  (literals ++ marks ++ words ++ [binary .add, not, error .unclosedComment]).map kindName

def kindNameOf (n : Int) : String := if n < 0 then "" else kindNames[n.toNat]?.getD ""

end Symbol

structure Token where
  symbol : Symbol
  span : Span
  deriving DecidableEq, Repr

def Token.message? (t : Token) : Option Message :=
  match t.symbol with
  | .error fault => some (.about t.span fault.message)
  | _ => none

end MiniJava
