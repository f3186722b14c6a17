import MiniJava.Syntax.Precedence
import MiniJava.Syntax.Tree
import MiniJava.Token.Scanner
/-!
Reading phrases from tokens, with one token of lookahead. The first token that fits no phrase ends
the reading; the cursor then stands on it.
-/
namespace MiniJava

inductive SyntaxFault where
  | expected (s : Symbol)
  | expectedIdentifier
  | expectedType
  | expectedStatement
  | expectedAction
  | expectedReference
  | expectedExpression
  | expectedNewOperand
  | literalOutOfRange (digits : String)
  | tooDeep
  deriving DecidableEq, Repr

/-- The fault in words, given the symbol that was found. -/
def SyntaxFault.message (found : Symbol) : SyntaxFault → String
  | expected s => s!"Parse error: expecting '{s.kindName}' but found '{found.describe}'"
  | expectedIdentifier => s!"Parse error: expecting 'identifier' but found '{found.describe}'"
  | expectedType => s!"Parse error: expecting a type but found '{found.describe}'"
  | expectedStatement => s!"Parse error: expecting a statement but found '{found.describe}'"
  | expectedAction => s!"Parse error: expecting '=', '[' or '(' but found '{found.describe}'"
  | expectedReference => s!"Parse error: expecting a reference but found '{found.describe}'"
  | expectedExpression => s!"Parse error: expecting an expression but found '{found.describe}'"
  | expectedNewOperand =>
    s!"Parse error: expecting 'int' or a class name after 'new' but found '{found.describe}'"
  | literalOutOfRange digits => s!"Parse error: integer literal {digits} out of range"
  | tooDeep => "Parse error: nested too deeply"

/-- A place in a sequence of tokens: the lines of the last token read, the token at hand and those
after it. The last token of all is never passed. -/
structure Cursor where
  previous : Span
  current : Token
  upcoming : List Token
  deriving DecidableEq, Repr

namespace Cursor

def start : List Token → Cursor
  | [] => ⟨.line 0, ⟨.endOfText, .line 0⟩, []⟩
  | t :: ts => ⟨.line 0, t, ts⟩

def advance (c : Cursor) : Cursor :=
  match c.upcoming with
  | [] => { c with previous := c.current.span }
  | t :: ts => ⟨c.current.span, t, ts⟩

/-- Enough for every phrase that starts here: no phrase nests deeper without reading a token. -/
def depthBound (c : Cursor) : Nat := 3 * c.upcoming.length + 6

def errorText (c : Cursor) : String :=
  s!"syntax error near {c.current.symbol.describe} at line {c.current.span.first}"

/-- The report on a fault at this place; a token that is an error has a report of its own. -/
def faultMessage (c : Cursor) (fault : SyntaxFault) : Message :=
  match c.current.message? with
  | some m => m
  | none => .about c.current.span (fault.message c.current.symbol)

end Cursor

abbrev Parser := EStateM SyntaxFault Cursor

namespace Parser

def peek : Parser Symbol := fun c => .ok c.current.symbol c

def here : Parser Span := fun c => .ok c.current.span c

/-- The lines of the last token read. -/
def passed : Parser Span := fun c => .ok c.previous c

def advance : Parser Unit := fun c => .ok () c.advance

def bounded {α : Type} (p : Nat → Parser α) : Parser α := fun c => p c.depthBound c

def expect (s : Symbol) : Parser Unit := do
  if (← peek) = s then advance else throw (.expected s)

def expectPunct (p : Punct) : Parser Unit := expect (.punct p)

def identifier : Parser Ident := do
  match ← peek with
  | .identifier name =>
    let span ← here
    advance
    return ⟨name, span⟩
  | _ => throw .expectedIdentifier

/-- `[ ]` after an element type turns it into an array type. -/
def arraySuffix (elem : TypeName) : Parser TypeName := do
  match ← peek with
  | .punct .leftBracket =>
    advance
    expectPunct .rightBracket
    return .array elem (elem.span.through (← passed))
  | _ => return elem

/-- `int | int [ ] | boolean | id | id [ ]` -/
def typeName : Parser TypeName := do
  match ← peek with
  | .keyword .booleanWord =>
    let span ← here
    advance
    return .boolean span
  | .keyword .intWord =>
    let span ← here
    advance
    arraySuffix (.int span)
  | .identifier _ => arraySuffix (.cls (← identifier))
  | _ => throw .expectedType

/-- `( . id )*` after a reference. -/
def members : Nat → Ref → Parser Ref
  | 0, _ => throw .tooDeep
  | n + 1, r => do
    match ← peek with
    | .punct .dot =>
      advance
      members n (.member r (← identifier) none)
    | _ => return r

/-- `( this | id ) ( . id )*` -/
def reference : Parser Ref := do
  match ← peek with
  | .keyword .thisWord =>
    let span ← here
    advance
    bounded fun n => members n (.this span none)
  | .identifier _ =>
    let id ← identifier
    bounded fun n => members n (.name id none)
  | _ => throw .expectedReference

def maxLiteral : Nat := 2147483647

def literal (l : Literal) : Parser Expr := do
  let span ← here
  advance
  return .literal l span

def unaryOp? : Symbol → Option UnaryOp
  | .not => some .not
  | .binary .sub => some .neg
  | _ => none

mutual

/-- `Operand ( binop Operand )*` -/
def expressionWithin : Nat → Parser Expr
  | 0 => throw .tooDeep
  | n + 1 => do
    let first ← operandWithin n
    let rest ← operationsWithin n
    return Precedence.tree (fun op : BinaryOp × Span => op.1.priority)
      (fun op => .binary op.1 op.2) first rest

/-- `( binop Operand )*` -/
def operationsWithin : Nat → Parser (List ((BinaryOp × Span) × Expr))
  | 0 => throw .tooDeep
  | n + 1 => do
    match ← peek with
    | .binary op =>
      let span ← here
      advance
      let term ← operandWithin n
      let rest ← operationsWithin n
      return ((op, span), term) :: rest
    | _ => return []

/-- One operand: `unop Operand`, `( Expression )`, a literal, a reference with its index or
arguments, or the creation of an object or array. -/
def operandWithin : Nat → Parser Expr
  | 0 => throw .tooDeep
  | n + 1 => do
    let symbol ← peek
    match unaryOp? symbol with
    | some op =>
      let span ← here
      advance
      return .unary op span (← operandWithin n)
    | none =>
      match symbol with
      | .punct .leftParen =>
        advance
        let e ← expressionWithin n
        expectPunct .rightParen
        return e
      | .integer digits =>
        if maxLiteral < Decimal.value digits.toList then throw (.literalOutOfRange digits)
        else literal (.int digits)
      | .keyword .trueWord => literal (.bool true)
      | .keyword .falseWord => literal (.bool false)
      | .keyword .nullWord => literal .null
      | .keyword .newWord => creationWithin n
      | .identifier _ => applicationWithin n
      | .keyword .thisWord => applicationWithin n
      | _ => throw .expectedExpression

/-- `Reference | Reference [ Expression ] | Reference ( Arguments? )` -/
def applicationWithin : Nat → Parser Expr
  | 0 => throw .tooDeep
  | n + 1 => do
    let start ← here
    let r ← reference
    match ← peek with
    | .punct .leftBracket =>
      advance
      let i ← expressionWithin n
      expectPunct .rightBracket
      return .index r i (start.through (← passed))
    | .punct .leftParen =>
      let args ← argumentsWithin n
      return .call r args (start.through (← passed))
    | _ => return .ref r

/-- `new ( id ( ) | int [ Expression ] | id [ Expression ] )` -/
def creationWithin : Nat → Parser Expr
  | 0 => throw .tooDeep
  | n + 1 => do
    let start ← here
    advance
    match ← peek with
    | .keyword .intWord =>
      let span ← here
      advance
      newArrayWithin n start (.int span)
    | .identifier _ =>
      let cls ← identifier
      match ← peek with
      | .punct .leftParen =>
        advance
        expectPunct .rightParen
        return .newObject cls (start.through (← passed))
      | _ => newArrayWithin n start (.cls cls)
    | _ => throw .expectedNewOperand

/-- `[ Expression ]` after `new` and an element type. -/
def newArrayWithin : Nat → Span → TypeName → Parser Expr
  | 0, _, _ => throw .tooDeep
  | n + 1, start, elem => do
    expectPunct .leftBracket
    let size ← expressionWithin n
    expectPunct .rightBracket
    return .newArray elem size (start.through (← passed))

/-- `( ( Expression ( , Expression )* )? )` with the parentheses. -/
def argumentsWithin : Nat → Parser (List Expr)
  | 0 => throw .tooDeep
  | n + 1 => do
    expectPunct .leftParen
    match ← peek with
    | .punct .rightParen =>
      advance
      return []
    | _ =>
      let args ← expressionsWithin n
      expectPunct .rightParen
      return args

/-- `Expression ( , Expression )*` -/
def expressionsWithin : Nat → Parser (List Expr)
  | 0 => throw .tooDeep
  | n + 1 => do
    let first ← expressionWithin n
    match ← peek with
    | .punct .comma =>
      advance
      return first :: (← expressionsWithin n)
    | _ => return [first]

end

def expression : Parser Expr := bounded expressionWithin

def arguments : Parser (List Expr) := bounded argumentsWithin

/-- `( Expression )` -/
def condition : Parser Expr := do
  expectPunct .leftParen
  let e ← expression
  expectPunct .rightParen
  return e

/-- `id = Expression ;` after the type of a local variable. -/
def declarationRest (type : TypeName) (start : Span) : Parser Stmt := do
  let id ← identifier
  expectPunct .assign
  let init ← expression
  expectPunct .semicolon
  return .declare ⟨id.name, type, start.through id.span⟩ init (start.through (← passed))

/-- `Expression ] = Expression ;` after a reference and an opening bracket. -/
def indexAssignmentRest (r : Ref) (start : Span) : Parser Stmt := do
  let i ← expression
  expectPunct .rightBracket
  expectPunct .assign
  let value ← expression
  expectPunct .semicolon
  return .assignIndex r i value (start.through (← passed))

/-- `= Expression ; | [ Expression ] = Expression ; | ( Arguments? ) ;` after a reference. -/
def actionRest (r : Ref) (start : Span) : Parser Stmt := do
  match ← peek with
  | .punct .assign =>
    advance
    let value ← expression
    expectPunct .semicolon
    return .assign r value (start.through (← passed))
  | .punct .leftBracket =>
    advance
    indexAssignmentRest r start
  | .punct .leftParen =>
    let args ← arguments
    expectPunct .semicolon
    return .call r args (start.through (← passed))
  | _ => throw .expectedAction

/-- A statement that starts with a name: the tokens after it tell whether it names a type. -/
def nameStatement : Parser Stmt := do
  let start ← here
  let id ← identifier
  match ← peek with
  | .identifier _ => declarationRest (.cls id) start
  | .punct .leftBracket =>
    advance
    match ← peek with
    | .punct .rightBracket =>
      advance
      declarationRest (.array (.cls id) (start.through (← passed))) start
    | _ => indexAssignmentRest (.name id none) start
  | _ =>
    let r ← bounded fun n => members n (.name id none)
    actionRest r start

/-- `return Expression? ;` -/
def returnStatement : Parser Stmt := do
  let start ← here
  advance
  match ← peek with
  | .punct .semicolon =>
    advance
    return .ret none (start.through (← passed))
  | _ =>
    let value ← expression
    expectPunct .semicolon
    return .ret (some value) (start.through (← passed))

mutual

def statementWithin : Nat → Parser Stmt
  | 0 => throw .tooDeep
  | n + 1 => do
    let start ← here
    match ← peek with
    | .punct .leftBrace =>
      advance
      let body ← statementsWithin n
      return .block body (start.through (← passed))
    | .keyword .intWord => declarationRest (← typeName) start
    | .keyword .booleanWord => declarationRest (← typeName) start
    | .identifier _ => nameStatement
    | .keyword .thisWord => actionRest (← reference) start
    | .keyword .returnWord => returnStatement
    | .keyword .ifWord =>
      advance
      let cond ← condition
      let thenBranch ← statementWithin n
      match ← peek with
      | .keyword .elseWord =>
        advance
        let elseBranch ← statementWithin n
        return .ifElse cond thenBranch elseBranch (start.through (← passed))
      | _ => return .ifThen cond thenBranch (start.through (← passed))
    | .keyword .whileWord =>
      advance
      let cond ← condition
      let body ← statementWithin n
      return .loop cond body (start.through (← passed))
    | _ => throw .expectedStatement

/-- `Statement* }` after an opening brace. -/
def statementsWithin : Nat → Parser (List Stmt)
  | 0 => throw .tooDeep
  | n + 1 => do
    match ← peek with
    | .punct .rightBrace =>
      advance
      return []
    | _ =>
      let first ← statementWithin n
      return first :: (← statementsWithin n)

end

def statement : Parser Stmt := bounded statementWithin

def statements : Parser (List Stmt) := bounded statementsWithin

/-- `Type id ( , Type id )*` -/
def parametersWithin : Nat → Parser (List Variable)
  | 0 => throw .tooDeep
  | n + 1 => do
    let start ← here
    let type ← typeName
    let id ← identifier
    let first : Variable := ⟨id.name, type, start.through id.span⟩
    match ← peek with
    | .punct .comma =>
      advance
      return first :: (← parametersWithin n)
    | _ => return [first]

def parameters : Parser (List Variable) := bounded parametersWithin

/-- `Parameters?` before a closing parenthesis. -/
def optionalParameters : Parser (List Variable) := do
  match ← peek with
  | .punct .rightParen => return []
  | _ => parameters

/-- `public`, `private` or nothing; true for `private`. -/
def visibility : Parser Bool := do
  match ← peek with
  | .keyword .publicWord =>
    advance
    return false
  | .keyword .privateWord =>
    advance
    return true
  | _ => return false

/-- `static` or nothing; true for `static`. -/
def access : Parser Bool := do
  match ← peek with
  | .keyword .staticWord =>
    advance
    return true
  | _ => return false

/-- `void` or a type. -/
def resultType : Parser TypeName := do
  match ← peek with
  | .keyword .voidWord =>
    let span ← here
    advance
    return .void span
  | _ => typeName

inductive Member where
  | field (f : Field)
  | method (m : Method)

/-- `( Parameters? ) { Statement* }` after the name of a method. -/
def methodRest (start : Span) (isPrivate isStatic : Bool) (type : TypeName) (name : String) :
    Parser Method := do
  expectPunct .leftParen
  let params ← optionalParameters
  expectPunct .rightParen
  expectPunct .leftBrace
  let body ← statements
  return { name, type, span := start.through (← passed), isPrivate, isStatic, params, body }

/-- `Visibility Access ( Type | void ) id ( ; | ( Parameters? ) { Statement* } )`, where only a
method may be void. -/
def member : Parser Member := do
  let start ← here
  let isPrivate ← visibility
  let isStatic ← access
  let type ← resultType
  let id ← identifier
  if (← peek) = .punct .semicolon ∧ type.ty ≠ .void then
    advance
    return .field { name := id.name, type, span := start.through (← passed), isPrivate, isStatic }
  else
    return .method (← methodRest start isPrivate isStatic type id.name)

/-- `Member* }` after an opening brace. -/
def membersUntilBrace : Nat → Parser (List Member)
  | 0 => throw .tooDeep
  | n + 1 => do
    match ← peek with
    | .punct .rightBrace =>
      advance
      return []
    | _ =>
      let first ← member
      return first :: (← membersUntilBrace n)

def Member.field? : Member → Option Field
  | .field f => some f
  | .method _ => none

def Member.method? : Member → Option Method
  | .field _ => none
  | .method m => some m

/-- `class id { Member* }` -/
def classDecl : Parser ClassDecl := do
  let start ← here
  advance
  let id ← identifier
  expectPunct .leftBrace
  let ms ← bounded membersUntilBrace
  return ⟨id, start.through (← passed), ms.filterMap Member.field?, ms.filterMap Member.method?⟩

/-- `ClassDecl*` -/
def classes : Nat → Parser (List ClassDecl)
  | 0 => throw .tooDeep
  | n + 1 => do
    match ← peek with
    | .keyword .classWord =>
      let first ← classDecl
      return first :: (← classes n)
    | _ => return []

/-- `ClassDecl* endOfText` -/
def program : Parser Program := do
  let start ← here
  let cs ← bounded classes
  expect .endOfText
  return ⟨cs, start.through (← passed)⟩

end Parser

/-- Why a token sequence is no program: the fault and where the cursor stood. -/
structure SyntaxError where
  fault : SyntaxFault
  place : Cursor
  deriving DecidableEq, Repr

def SyntaxError.message (e : SyntaxError) : Message := e.place.faultMessage e.fault

def Program.ofTokens (ts : List Token) : Except SyntaxError Program :=
  match Parser.program (Cursor.start ts) with
  | .ok p _ => .ok p
  | .error fault c => .error ⟨fault, c⟩

def Program.parse (source : Bytes) : Except SyntaxError Program :=
  Program.ofTokens (Scan.tokens source)

end MiniJava
