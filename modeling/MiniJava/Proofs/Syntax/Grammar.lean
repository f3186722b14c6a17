import MiniJava.Proofs.Syntax.Grouping
import MiniJava.Syntax.Parser
import MiniJava.Syntax.Shape
/-!
The grammar of the language. Its rules relate sequences of symbols to the shapes of what they spell.
An `else` may belong to any open `if`, so that a sequence can spell several statements; at most one
of them gives every `else` to the nearest `if`.
-/
namespace MiniJava.Grammar

/-- `int | int [ ] | boolean | id | id [ ]` -/
inductive SpellsType : List Symbol → TypeName → Prop
  | int : SpellsType [.keyword .intWord] (.int blank)
  | intArray : SpellsType [.keyword .intWord, .punct .leftBracket, .punct .rightBracket]
      (.array (.int blank) blank)
  | boolean : SpellsType [.keyword .booleanWord] (.boolean blank)
  | cls {x} : SpellsType [.identifier x] (.cls ⟨x, blank⟩)
  | clsArray {x} : SpellsType [.identifier x, .punct .leftBracket, .punct .rightBracket]
      (.array (.cls ⟨x, blank⟩) blank)

/-- `( id | this ) ( . id )*` -/
inductive SpellsRef : List Symbol → Ref → Prop
  | this : SpellsRef [.keyword .thisWord] (.this blank none)
  | name {x} : SpellsRef [.identifier x] (.name ⟨x, blank⟩ none)
  | member {ss r x} : SpellsRef ss r →
      SpellsRef (ss ++ [.punct .dot, .identifier x]) (.member r ⟨x, blank⟩ none)

/-- The operators of a tier. -/
def tier : Nat → List BinaryOp
  | 1 => [.or]
  | 2 => [.and]
  | 3 => [.eq, .ne]
  | 4 => [.lt, .le, .gt, .ge]
  | 5 => [.add, .sub]
  | 6 => [.mul, .div]
  | _ => []

mutual

/-- Expressions in tiers: `Tier ::= Tier binop Tighter | Tighter`, where the operator is one of the
tier, and the tightest are operands. -/
inductive SpellsExpr : Nat → List Symbol → Expr → Prop
  | operand {ss e} : SpellsOperand ss e → SpellsExpr 7 ss e
  | tighter {t ss e} : SpellsExpr (t + 1) ss e → SpellsExpr t ss e
  | binary {t op ss ss' l r} : op ∈ tier t → SpellsExpr t ss l → SpellsExpr (t + 1) ss' r →
      SpellsExpr t (ss ++ .binary op :: ss') (.binary op blank l r)

/-- `Ref | Ref [ Expr ] | Ref ( Args? ) | unop Operand | - Operand | ( Expr ) | num | true | false |
null | new ( id ( ) | int [ Expr ] | id [ Expr ] )` -/
inductive SpellsOperand : List Symbol → Expr → Prop
  | ref {ss r} : SpellsRef ss r → SpellsOperand ss (.ref r)
  | index {ss ss' r i} : SpellsRef ss r → SpellsExpr 1 ss' i →
      SpellsOperand (ss ++ .punct .leftBracket :: (ss' ++ [.punct .rightBracket]))
        (.index r i blank)
  | call {ss ss' r args} : SpellsRef ss r → SpellsArgs ss' args →
      SpellsOperand (ss ++ ss') (.call r args blank)
  | not {ss e} : SpellsOperand ss e → SpellsOperand (.not :: ss) (.unary .not blank e)
  | neg {ss e} : SpellsOperand ss e → SpellsOperand (.binary .sub :: ss) (.unary .neg blank e)
  | paren {ss e} : SpellsExpr 1 ss e →
      SpellsOperand (.punct .leftParen :: (ss ++ [.punct .rightParen])) e
  | num {digits} : Decimal.value digits.toList ≤ 2147483647 →
      SpellsOperand [.integer digits] (.literal (.int digits) blank)
  | trueWord : SpellsOperand [.keyword .trueWord] (.literal (.bool true) blank)
  | falseWord : SpellsOperand [.keyword .falseWord] (.literal (.bool false) blank)
  | nullWord : SpellsOperand [.keyword .nullWord] (.literal .null blank)
  | newObject {x} : SpellsOperand
      [.keyword .newWord, .identifier x, .punct .leftParen,
        .punct .rightParen] (.newObject ⟨x, blank⟩ blank)
  | newIntArray {ss e} : SpellsExpr 1 ss e → SpellsOperand
      (.keyword .newWord :: .keyword .intWord :: .punct .leftBracket ::
        (ss ++ [.punct .rightBracket]))
      (.newArray (.int blank) e blank)
  | newClsArray {x ss e} : SpellsExpr 1 ss e → SpellsOperand
      (.keyword .newWord :: .identifier x :: .punct .leftBracket :: (ss ++ [.punct .rightBracket]))
      (.newArray (.cls ⟨x, blank⟩) e blank)

/-- `( ( Expr ( , Expr )* )? )` with the parentheses. -/
inductive SpellsArgs : List Symbol → List Expr → Prop
  | nil : SpellsArgs [.punct .leftParen, .punct .rightParen] []
  | list {ss es} : SpellsExprs ss es →
      SpellsArgs (.punct .leftParen :: (ss ++ [.punct .rightParen])) es

/-- `Expr ( , Expr )*` -/
inductive SpellsExprs : List Symbol → List Expr → Prop
  | single {ss e} : SpellsExpr 1 ss e → SpellsExprs ss [e]
  | cons {ss ss' e es} : SpellsExpr 1 ss e → SpellsExprs ss' es →
      SpellsExprs (ss ++ .punct .comma :: ss') (e :: es)

end

mutual

/-- `{ Stmt* } | Type id = Expr ; | Ref = Expr ; | Ref [ Expr ] = Expr ; | Ref ( Args? ) ; | return
Expr? ; | if ( Expr ) Stmt ( else Stmt )? | while ( Expr ) Stmt` -/
inductive SpellsStmt : List Symbol → Stmt → Prop
  | block {ss body} : SpellsStmts ss body →
      SpellsStmt (.punct .leftBrace :: (ss ++ [.punct .rightBrace])) (.block body blank)
  | declare {ts t x es e} : SpellsType ts t → SpellsExpr 1 es e →
      SpellsStmt (ts ++ .identifier x :: .punct .assign :: (es ++ [.punct .semicolon]))
        (.declare ⟨x, t, blank⟩ e blank)
  | assign {rs r es e} : SpellsRef rs r → SpellsExpr 1 es e →
      SpellsStmt (rs ++ .punct .assign :: (es ++ [.punct .semicolon])) (.assign r e blank)
  | assignIndex {rs r is i es e} : SpellsRef rs r → SpellsExpr 1 is i → SpellsExpr 1 es e →
      SpellsStmt
        (rs ++ .punct .leftBracket ::
          (is ++ .punct .rightBracket :: .punct .assign :: (es ++ [.punct .semicolon])))
        (.assignIndex r i e blank)
  | call {rs r as args} : SpellsRef rs r → SpellsArgs as args →
      SpellsStmt (rs ++ (as ++ [.punct .semicolon])) (.call r args blank)
  | retVoid : SpellsStmt [.keyword .returnWord, .punct .semicolon] (.ret none blank)
  | ret {es e} : SpellsExpr 1 es e →
      SpellsStmt (.keyword .returnWord :: (es ++ [.punct .semicolon])) (.ret (some e) blank)
  | ifThen {cs c ts t} : SpellsExpr 1 cs c → SpellsStmt ts t →
      SpellsStmt (.keyword .ifWord :: .punct .leftParen :: (cs ++ .punct .rightParen :: ts))
        (.ifThen c t blank)
  | ifElse {cs c ts t es e} : SpellsExpr 1 cs c → SpellsStmt ts t → SpellsStmt es e →
      SpellsStmt (.keyword .ifWord :: .punct .leftParen ::
        (cs ++ .punct .rightParen :: (ts ++ .keyword .elseWord :: es)))
        (.ifElse c t e blank)
  | loop {cs c bs b} : SpellsExpr 1 cs c → SpellsStmt bs b →
      SpellsStmt (.keyword .whileWord :: .punct .leftParen :: (cs ++ .punct .rightParen :: bs))
        (.loop c b blank)

inductive SpellsStmts : List Symbol → List Stmt → Prop
  | nil : SpellsStmts [] []
  | cons {ss s ss' rest} : SpellsStmt ss s → SpellsStmts ss' rest →
      SpellsStmts (ss ++ ss') (s :: rest)

end

/-- `Type id ( , Type id )*` -/
inductive SpellsParams : List Symbol → List Variable → Prop
  | single {ts t x} : SpellsType ts t → SpellsParams (ts ++ [.identifier x]) [⟨x, t, blank⟩]
  | cons {ts t x ss vs} : SpellsType ts t → SpellsParams ss vs →
      SpellsParams (ts ++ .identifier x :: .punct .comma :: ss) (⟨x, t, blank⟩ :: vs)

/-- `( public | private )?`; members are public unless marked private. -/
inductive SpellsVisibility : List Symbol → Bool → Prop
  | unmarked : SpellsVisibility [] false
  | publicWord : SpellsVisibility [.keyword .publicWord] false
  | privateWord : SpellsVisibility [.keyword .privateWord] true

/-- `static?` -/
inductive SpellsAccess : List Symbol → Bool → Prop
  | instanceMember : SpellsAccess [] false
  | staticWord : SpellsAccess [.keyword .staticWord] true

/-- `void | Type` -/
inductive SpellsResult : List Symbol → TypeName → Prop
  | void : SpellsResult [.keyword .voidWord] (.void blank)
  | type {ss t} : SpellsType ss t → SpellsResult ss t

/-- `( Params? )` with the parentheses. -/
inductive SpellsParamList : List Symbol → List Variable → Prop
  | nil : SpellsParamList [.punct .leftParen, .punct .rightParen] []
  | list {ss vs} : SpellsParams ss vs →
      SpellsParamList (.punct .leftParen :: (ss ++ [.punct .rightParen])) vs

/-- `Visibility Access Type id ; | Visibility Access ( void | Type ) id ( Params? ) { Stmt* }` -/
inductive SpellsMember : List Symbol → Parser.Member → Prop
  | field {vs isPrivate as isStatic ts t x} : SpellsVisibility vs isPrivate →
      SpellsAccess as isStatic →
      SpellsType ts t → SpellsMember (vs ++ (as ++ (ts ++ [.identifier x, .punct .semicolon])))
        (.field ⟨x, t, blank, isPrivate, isStatic⟩)
  | method {vs isPrivate as isStatic ts t x ps params ss body} : SpellsVisibility vs isPrivate →
      SpellsAccess as isStatic → SpellsResult ts t → SpellsParamList ps params →
        SpellsStmts ss body →
      SpellsMember
        (vs ++ (as ++
          (ts ++ .identifier x :: (ps ++ .punct .leftBrace :: (ss ++ [.punct .rightBrace])))))
        (.method ⟨⟨x, t, blank, isPrivate, isStatic, params⟩, body⟩)

inductive SpellsMembers : List Symbol → List Parser.Member → Prop
  | nil : SpellsMembers [] []
  | cons {ss m ss' ms} : SpellsMember ss m → SpellsMembers ss' ms →
      SpellsMembers (ss ++ ss') (m :: ms)

/-- `class id { Member* }`; the tree keeps fields and methods apart. -/
inductive SpellsClass : List Symbol → ClassDecl → Prop
  | mk {x ss ms} : SpellsMembers ss ms → SpellsClass
      (.keyword .classWord :: .identifier x :: .punct .leftBrace :: (ss ++ [.punct .rightBrace]))
      ⟨⟨x, blank⟩, blank, ms.filterMap Parser.Member.field?, ms.filterMap Parser.Member.method?⟩

inductive SpellsClasses : List Symbol → List ClassDecl → Prop
  | nil : SpellsClasses [] []
  | cons {ss c ss' cs} : SpellsClass ss c → SpellsClasses ss' cs →
      SpellsClasses (ss ++ ss') (c :: cs)

/-- `ClassDecl*` -/
inductive SpellsProgram : List Symbol → Program → Prop
  | mk {ss cs} : SpellsClasses ss cs → SpellsProgram ss ⟨cs, blank⟩

end MiniJava.Grammar

namespace MiniJava

/-- A statement that ends in an `if` which could still take an `else`. -/
def Stmt.isOpen : Stmt → Bool
  | .ifThen _ _ _ => true
  | .ifElse _ _ e _ => e.isOpen
  | .loop _ body _ => body.isOpen
  | _ => false

mutual

/-- Every `else` belongs to the nearest `if` that can take it: no branch before an `else` could. -/
def Stmt.elseNearest : Stmt → Bool
  | .block body _ => Stmt.elsesNearest body
  | .ifThen _ t _ => t.elseNearest
  | .ifElse _ t e _ => !t.isOpen && t.elseNearest && e.elseNearest
  | .loop _ body _ => body.elseNearest
  | _ => true

def Stmt.elsesNearest : List Stmt → Bool
  | [] => true
  | s :: ss => s.elseNearest && Stmt.elsesNearest ss

end

/-- Every `else` of the program belongs to the nearest `if` that can take it. -/
def Program.elsesNearest (p : Program) : Bool :=
  p.classes.all fun c => c.methods.all fun m => Stmt.elsesNearest m.body

end MiniJava
