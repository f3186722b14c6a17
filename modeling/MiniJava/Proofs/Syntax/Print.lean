import MiniJava.Proofs.Syntax.Recognized
import MiniJava.Proofs.Token.Spaced
import MiniJava.Scope.Unbound
/-!
Programs as source text. Parentheses stand around every operand that has an operator of its own, the
fields of a class come before its methods, and one blank stands between symbols. Parsing undoes
printing: the printed symbols are spelled by the grammar as the program, and the scanner reads them
back.
-/
namespace MiniJava

namespace TypeName

def symbols : TypeName → List Symbol
  | int _ => [.keyword .intWord]
  | boolean _ => [.keyword .booleanWord]
  | void _ => [.keyword .voidWord]
  | cls id => [.identifier id.name]
  | array elem _ => elem.symbols ++ [.punct .leftBracket, .punct .rightBracket]

/-- The types of array elements. -/
def isElement : TypeName → Bool
  | int _ => true
  | cls id => isName id.name
  | boolean _ | void _ | array _ _ => false

/-- The types of fields, parameters and locals. -/
def isWritable : TypeName → Bool
  | int _ | boolean _ => true
  | void _ => false
  | cls id => isName id.name
  | array elem _ => elem.isElement

/-- The types of methods. -/
def isResult : TypeName → Bool
  | void _ => true
  | t => t.isWritable

end TypeName

namespace Ref

def symbols : Ref → List Symbol
  | this _ _ => [.keyword .thisWord]
  | name id _ => [.identifier id.name]
  | member q id _ => q.symbols ++ [.punct .dot, .identifier id.name]

def isWritable : Ref → Bool
  | this _ _ => true
  | name id _ => isName id.name
  | member q id _ => q.isWritable && isName id.name

end Ref

namespace Literal

def symbol : Literal → Symbol
  | int digits => .integer digits
  | bool true => .keyword .trueWord
  | bool false => .keyword .falseWord
  | null => .keyword .nullWord

/-- An integer is a run of digits whose value fits a word. -/
def isWritable : Literal → Bool
  | int digits => (Decimal.natural? digits.toList).any (· ≤ 2147483647)
  | bool _ | null => true

end Literal

def UnaryOp.symbol : UnaryOp → Symbol
  | not => .not
  | neg => .binary .sub

/-- Whether the expression has an operator outside of parentheses. -/
def Expr.isOperation : Expr → Bool
  | .unary _ _ _ | .binary _ _ _ _ => true
  | _ => false

/-- An expression as an operand, given its symbols. -/
def Expr.operandOf (e : Expr) (ss : List Symbol) : List Symbol :=
  if e.isOperation then .punct .leftParen :: (ss ++ [.punct .rightParen]) else ss

mutual

def Expr.symbols : Expr → List Symbol
  | .unary op _ e => op.symbol :: e.operandOf e.symbols
  | .binary op _ l r => l.operandOf l.symbols ++ .binary op :: r.operandOf r.symbols
  | .ref r => r.symbols
  | .index r i _ => r.symbols ++ .punct .leftBracket :: (i.symbols ++ [.punct .rightBracket])
  | .call r args _ =>
    r.symbols ++ .punct .leftParen :: (Expr.listSymbols args ++ [.punct .rightParen])
  | .literal l _ => [l.symbol]
  | .newObject c _ => [.keyword .newWord, .identifier c.name, .punct .leftParen, .punct .rightParen]
  | .newArray t size _ =>
    .keyword .newWord ::
      (t.symbols ++ .punct .leftBracket :: (size.symbols ++ [.punct .rightBracket]))

/-- Expressions with commas between them. -/
def Expr.listSymbols : List Expr → List Symbol
  | [] => []
  | [e] => e.symbols
  | e :: f :: es => e.symbols ++ .punct .comma :: Expr.listSymbols (f :: es)

end

mutual

def Expr.isWritable : Expr → Bool
  | .unary _ _ e => e.isWritable
  | .binary _ _ l r => l.isWritable && r.isWritable
  | .ref r => r.isWritable
  | .index r i _ => r.isWritable && i.isWritable
  | .call r args _ => r.isWritable && Expr.areWritable args
  | .literal l _ => l.isWritable
  | .newObject c _ => isName c.name
  | .newArray t size _ => t.isElement && size.isWritable

def Expr.areWritable : List Expr → Bool
  | [] => true
  | e :: es => e.isWritable && Expr.areWritable es

end

def Variable.symbols (v : Variable) : List Symbol := v.type.symbols ++ [.identifier v.name]

def Variable.isWritable (v : Variable) : Bool := v.type.isWritable && isName v.name

mutual

def Stmt.symbols : Stmt → List Symbol
  | .block body _ => .punct .leftBrace :: (Stmt.listSymbols body ++ [.punct .rightBrace])
  | .declare v init _ => v.symbols ++ .punct .assign :: (init.symbols ++ [.punct .semicolon])
  | .assign r value _ => r.symbols ++ .punct .assign :: (value.symbols ++ [.punct .semicolon])
  | .assignIndex r i value _ => r.symbols ++ .punct .leftBracket ::
    (i.symbols ++ .punct .rightBracket :: .punct .assign :: (value.symbols ++ [.punct .semicolon]))
  | .call r args _ => r.symbols ++ .punct .leftParen ::
    (Expr.listSymbols args ++ [.punct .rightParen, .punct .semicolon])
  | .ret none _ => [.keyword .returnWord, .punct .semicolon]
  | .ret (some value) _ => .keyword .returnWord :: (value.symbols ++ [.punct .semicolon])
  | .ifThen cond t _ =>
    .keyword .ifWord :: .punct .leftParen :: (cond.symbols ++ .punct .rightParen :: t.symbols)
  | .ifElse cond t e _ => .keyword .ifWord :: .punct .leftParen ::
    (cond.symbols ++ .punct .rightParen :: (t.symbols ++ .keyword .elseWord :: e.symbols))
  | .loop cond body _ => .keyword .whileWord :: .punct .leftParen ::
    (cond.symbols ++ .punct .rightParen :: body.symbols)

def Stmt.listSymbols : List Stmt → List Symbol
  | [] => []
  | s :: ss => s.symbols ++ Stmt.listSymbols ss

end

mutual

def Stmt.isWritable : Stmt → Bool
  | .block body _ => Stmt.areWritable body
  | .declare v init _ => v.isWritable && init.isWritable
  | .assign r value _ => r.isWritable && value.isWritable
  | .assignIndex r i value _ => r.isWritable && i.isWritable && value.isWritable
  | .call r args _ => r.isWritable && Expr.areWritable args
  | .ret none _ => true
  | .ret (some value) _ => value.isWritable
  | .ifThen cond t _ => cond.isWritable && t.isWritable
  | .ifElse cond t e _ => cond.isWritable && t.isWritable && e.isWritable
  | .loop cond body _ => cond.isWritable && body.isWritable

def Stmt.areWritable : List Stmt → Bool
  | [] => true
  | s :: ss => s.isWritable && Stmt.areWritable ss

end

def visibilitySymbols (isPrivate : Bool) : List Symbol :=
  [.keyword (if isPrivate then .privateWord else .publicWord)]

def accessSymbols (isStatic : Bool) : List Symbol := if isStatic then [.keyword .staticWord] else []

def Field.symbols (f : Field) : List Symbol :=
  visibilitySymbols f.isPrivate ++
    (accessSymbols f.isStatic ++ (f.type.symbols ++ [.identifier f.name, .punct .semicolon]))

def Field.isWritable (f : Field) : Bool := f.type.isWritable && isName f.name

/-- Parameters with commas between them. -/
def Variable.listSymbols : List Variable → List Symbol
  | [] => []
  | [v] => v.symbols
  | v :: w :: vs => v.symbols ++ .punct .comma :: Variable.listSymbols (w :: vs)

def paramSymbols (vs : List Variable) : List Symbol :=
  .punct .leftParen :: (Variable.listSymbols vs ++ [.punct .rightParen])

def Method.symbols (m : Method) : List Symbol :=
  visibilitySymbols m.isPrivate ++
    (accessSymbols m.isStatic ++ (m.type.symbols ++ .identifier m.name ::
      (paramSymbols m.params ++ .punct .leftBrace ::
        (Stmt.listSymbols m.body ++ [.punct .rightBrace]))))

def Method.isWritable (m : Method) : Bool :=
  m.type.isResult && isName m.name && m.params.all Variable.isWritable && Stmt.areWritable m.body

def ClassDecl.symbols (c : ClassDecl) : List Symbol :=
  .keyword .classWord :: .identifier c.name :: .punct .leftBrace ::
    ((c.fields.flatMap Field.symbols ++ c.methods.flatMap Method.symbols) ++ [.punct .rightBrace])

def ClassDecl.isWritable (c : ClassDecl) : Bool :=
  isName c.name && c.fields.all Field.isWritable && c.methods.all Method.isWritable

namespace Program

def symbols (p : Program) : List Symbol := p.classes.flatMap ClassDecl.symbols

/-- Names are no keywords, integers fit a word, and types stand where the language has them. -/
def isWritable (p : Program) : Bool := p.classes.all ClassDecl.isWritable

/-- The source text of a program. -/
def print (p : Program) : Bytes := Bytes.ofString (Symbol.spaced p.symbols)

end Program

namespace Grammar

theorem spells_type {t : TypeName} (h : t.isWritable = true) : SpellsType t.symbols t.shape := by
  cases t with
  | int span => exact .int
  | boolean span => exact .boolean
  | void span => cases h
  | cls id => exact .cls
  | array elem span =>
    cases elem with
    | int span => exact .intArray
    | cls id => exact .clsArray
    | boolean span => cases h
    | void span => cases h
    | array elem span => cases h

theorem spells_result {t : TypeName} (h : t.isResult = true) : SpellsResult t.symbols t.shape := by
  cases t with
  | void span => exact .void
  | _ => exact .type (spells_type h)

theorem spells_ref (r : Ref) : SpellsRef r.symbols r.unbound.shape := by
  induction r with
  | this span d => exact .this
  | name id d => exact .name
  | member q id d ih => exact .member ih

theorem spells_literal {l : Literal} (h : l.isWritable = true) :
    SpellsOperand [l.symbol] (.literal l blank) := by
  cases l with
  | int digits =>
    rw [Literal.isWritable, Decimal.natural?] at h
    split at h
    · cases h
    · exact .num (of_decide_eq_true h)
  | bool b =>
    cases b with
    | true => exact .trueWord
    | false => exact .falseWord
  | null => exact .nullWord

/-- What printing an expression gives: an operand with the parentheses it needs, and an expression
without them. -/
structure Spelled (e : Expr) : Prop where
  operand : SpellsOperand (e.operandOf e.symbols) e.unbound.shape
  expr : SpellsExpr 1 e.symbols e.unbound.shape

theorem Spelled.of_operand {e : Expr} (he : e.isOperation = false)
    (h : SpellsOperand e.symbols e.unbound.shape) : Spelled e := by
  constructor
  · rw [Expr.operandOf, he]
    exact h
  · exact h.expr (by decide)

theorem Spelled.of_operation {e : Expr} (he : e.isOperation = true)
    (h : SpellsExpr 1 e.symbols e.unbound.shape) : Spelled e := by
  constructor
  · rw [Expr.operandOf, he]
    exact .paren h
  · exact h

theorem Spelled.unary {op : UnaryOp} {span : Span} {e : Expr}
    (h : Spelled e) : Spelled (.unary op span e) := by
  apply Spelled.of_operation rfl
  cases op with
  | not => exact (SpellsOperand.not h.operand).expr (by decide)
  | neg => exact (SpellsOperand.neg h.operand).expr (by decide)

theorem Spelled.binary {op : BinaryOp} {span : Span} {l r : Expr} (hl : Spelled l)
    (hr : Spelled r) : Spelled (.binary op span l r) := by
  have hle := priority_le_six op
  have hbinary :=
    SpellsExpr.binary (mem_tier.mpr rfl) (hl.operand.expr (show op.priority ≤ 7 by omega))
    (hr.operand.expr (show op.priority + 1 ≤ 7 by omega))
  exact Spelled.of_operation rfl (hbinary.weaken (one_le_priority op))

theorem spells_exprs {e : Expr} {es : List Expr} (h : ∀ x ∈ e :: es, Spelled x) :
    SpellsExprs (Expr.listSymbols (e :: es)) (Expr.shapes (Expr.unboundAll (e :: es))) := by
  induction es generalizing e with
  | nil => exact .single (h e List.mem_cons_self).expr
  | cons f es ih =>
    rw [List.forall_mem_cons] at h
    exact .cons h.1.expr (ih h.2)

theorem spells_args {es : List Expr} (h : ∀ x ∈ es, Spelled x) :
    SpellsArgs (.punct .leftParen :: (Expr.listSymbols es ++ [Symbol.punct .rightParen]))
      (Expr.shapes (Expr.unboundAll es)) := by
  cases es with
  | nil => exact .nil
  | cons e es => exact .list (spells_exprs h)

mutual

theorem spelled_expr : ∀ e : Expr, e.isWritable = true → Spelled e
  | .unary _ _ e, h => (spelled_expr e h).unary
  | .binary _ _ l r, h =>
    (spelled_expr l (Bool.and_eq_true_iff.mp h).1).binary
      (spelled_expr r (Bool.and_eq_true_iff.mp h).2)
  | .ref r, _ => .of_operand rfl (.ref (spells_ref r))
  | .index r i _, h =>
    .of_operand rfl (.index (spells_ref r) (spelled_expr i (Bool.and_eq_true_iff.mp h).2).expr)
  | .call r args _, h =>
    .of_operand rfl
      (.call (spells_ref r) (spells_args (spelled_exprs args (Bool.and_eq_true_iff.mp h).2)))
  | .literal _ _, h => .of_operand rfl (spells_literal h)
  | .newObject _ _, _ => .of_operand rfl .newObject
  | .newArray (.int _) size _, h => .of_operand rfl (.newIntArray (spelled_expr size h).expr)
  | .newArray (.cls _) size _, h =>
    .of_operand rfl (.newClsArray (spelled_expr size (Bool.and_eq_true_iff.mp h).2).expr)

theorem spelled_exprs : ∀ es : List Expr, Expr.areWritable es = true → ∀ x ∈ es, Spelled x
  | [], _ => List.forall_mem_nil _
  | e :: es, h => List.forall_mem_cons.mpr
      ⟨spelled_expr e (Bool.and_eq_true_iff.mp h).1, spelled_exprs es (Bool.and_eq_true_iff.mp h).2⟩

end

mutual

theorem spells_stmt : ∀ s : Stmt, s.isWritable = true → SpellsStmt s.symbols s.unbound.shape
  | .block body _, h => .block (spells_stmts body h)
  | .declare v init _, h => by
    rw [Stmt.isWritable, Variable.isWritable, Bool.and_eq_true, Bool.and_eq_true] at h
    rw [Stmt.symbols, Variable.symbols, List.append_assoc, List.singleton_append]
    exact .declare (spells_type h.1.1) (spelled_expr init h.2).expr
  | .assign r value _, h =>
    .assign (spells_ref r) (spelled_expr value (Bool.and_eq_true_iff.mp h).2).expr
  | .assignIndex r i value _, h => by
    rw [Stmt.isWritable, Bool.and_eq_true, Bool.and_eq_true] at h
    exact .assignIndex (spells_ref r) (spelled_expr i h.1.2).expr (spelled_expr value h.2).expr
  | .call r args _, h => by
    rw [Stmt.isWritable, Bool.and_eq_true] at h
    have hcall := SpellsStmt.call (spells_ref r) (spells_args (spelled_exprs args h.2))
    rw [List.cons_append, List.append_assoc] at hcall
    exact hcall
  | .ret none _, _ => .retVoid
  | .ret (some value) _, h => .ret (spelled_expr value h).expr
  | .ifThen cond t _, h => by
    rw [Stmt.isWritable, Bool.and_eq_true] at h
    exact .ifThen (spelled_expr cond h.1).expr (spells_stmt t h.2)
  | .ifElse cond t e _, h => by
    rw [Stmt.isWritable, Bool.and_eq_true, Bool.and_eq_true] at h
    exact .ifElse (spelled_expr cond h.1.1).expr (spells_stmt t h.1.2) (spells_stmt e h.2)
  | .loop cond body _, h => by
    rw [Stmt.isWritable, Bool.and_eq_true] at h
    exact .loop (spelled_expr cond h.1).expr (spells_stmt body h.2)

theorem spells_stmts : ∀ ss : List Stmt, Stmt.areWritable ss = true →
    SpellsStmts (Stmt.listSymbols ss) (Stmt.shapes (Stmt.unboundAll ss))
  | [], _ => .nil
  | s :: ss, h =>
    .cons (spells_stmt s (Bool.and_eq_true_iff.mp h).1)
      (spells_stmts ss (Bool.and_eq_true_iff.mp h).2)

end

theorem spells_params {v : Variable} {vs : List Variable} (h : ∀ x ∈ v :: vs, x.isWritable = true) :
    SpellsParams (Variable.listSymbols (v :: vs)) ((v :: vs).map Variable.shape) := by
  induction vs generalizing v with
  | nil =>
    have hv := Bool.and_eq_true_iff.mp (h v List.mem_cons_self)
    exact .single (spells_type hv.1)
  | cons w vs ih =>
    rw [List.forall_mem_cons] at h
    have hv := Bool.and_eq_true_iff.mp h.1
    rw [Variable.listSymbols, Variable.symbols, List.append_assoc, List.singleton_append]
    exact .cons (spells_type hv.1) (ih h.2)

theorem spells_paramList {vs : List Variable} (h : vs.all Variable.isWritable = true) :
    SpellsParamList (paramSymbols vs) (vs.map Variable.shape) := by
  rw [List.all_eq_true] at h
  cases vs with
  | nil => exact .nil
  | cons v vs => exact .list (spells_params h)

theorem spells_visibility (isPrivate : Bool) :
    SpellsVisibility (visibilitySymbols isPrivate) isPrivate := by
  cases isPrivate with
  | false => exact .publicWord
  | true => exact .privateWord

theorem spells_access (isStatic : Bool) : SpellsAccess (accessSymbols isStatic) isStatic := by
  cases isStatic with
  | false => exact .instanceMember
  | true => exact .staticWord

theorem spells_field {f : Field} (h : f.isWritable = true) :
    SpellsMember f.symbols (.field f.shape) := by
  rw [Field.isWritable, Bool.and_eq_true] at h
  exact .field (spells_visibility _) (spells_access _) (spells_type h.1)

theorem spells_method {m : Method} (h : m.isWritable = true) :
    SpellsMember m.symbols (.method m.unbound.shape) := by
  rw [Method.isWritable, Bool.and_eq_true, Bool.and_eq_true, Bool.and_eq_true] at h
  exact .method (spells_visibility _) (spells_access _) (spells_result h.1.1.1)
    (spells_paramList h.1.2)
    (spells_stmts m.body h.2)

theorem SpellsMembers.append {ss ss' : List Symbol} {ms ms' : List Parser.Member}
    (h : SpellsMembers ss ms)
    (h' : SpellsMembers ss' ms') : SpellsMembers (ss ++ ss') (ms ++ ms') := by
  induction h with
  | nil => exact h'
  | cons hm _ ih =>
    rw [List.append_assoc]
    exact .cons hm ih

theorem spells_members {α : Type} {symbols : α → List Symbol} {member : α → Parser.Member}
    {xs : List α} (h : ∀ x ∈ xs, SpellsMember (symbols x) (member x)) :
    SpellsMembers (xs.flatMap symbols) (xs.map member) := by
  induction xs with
  | nil => exact .nil
  | cons x xs ih =>
    rw [List.forall_mem_cons] at h
    exact .cons h.1 (ih h.2)

theorem spells_class {c : ClassDecl}
    (h : c.isWritable = true) : SpellsClass c.symbols c.unbound.shape := by
  rw [ClassDecl.isWritable, Bool.and_eq_true, Bool.and_eq_true, List.all_eq_true, List.all_eq_true]
    at h
  have hfields := spells_members fun f hf => spells_field (h.1.2 f hf)
  have hmethods := spells_members fun m hm => spells_method (h.2 m hm)
  have hclass : SpellsClass c.symbols _ := .mk (hfields.append hmethods)
  have hshape : c.unbound.shape = ⟨⟨c.name, blank⟩, blank, c.fields.map Field.shape,
      c.methods.map (·.unbound.shape)⟩ := by
    simp [ClassDecl.shape, ClassDecl.unbound, ClassDecl.name, Ident.shape, Function.comp_def]
  rw [hshape]
  have hnoFields :
      (c.methods.map (Parser.Member.method ·.unbound.shape)).filterMap Parser.Member.field? =
        [] := by
    simp [Parser.Member.field?]
  have hnoMethods : (c.fields.map (Parser.Member.field ·.shape)).filterMap Parser.Member.method? =
      [] := by
    simp [Parser.Member.method?]
  rw [List.filterMap_append, List.filterMap_append, hnoFields, hnoMethods, List.filterMap_map,
    List.filterMap_map, List.append_nil] at hclass
  simpa [Function.comp_def, Parser.Member.field?, Parser.Member.method?] using hclass

theorem spells_classes {cs : List ClassDecl} (h : ∀ c ∈ cs, c.isWritable = true) :
    SpellsClasses (cs.flatMap ClassDecl.symbols) (cs.map fun c => c.unbound.shape) := by
  induction cs with
  | nil => exact .nil
  | cons c cs ih =>
    rw [List.forall_mem_cons] at h
    exact .cons (spells_class h.1) (ih h.2)

theorem spells_program {p : Program} (h : p.isWritable = true) :
    SpellsProgram p.symbols p.unbound.shape := by
  rw [Program.isWritable, List.all_eq_true] at h
  have hclasses := spells_classes h
  rw [← Function.comp_def, ← List.map_map] at hclasses
  exact .mk hclasses

end Grammar

theorem Stmt.isOpen_unbound : ∀ s : Stmt, s.unbound.isOpen = s.isOpen
  | .block _ _ | .declare _ _ _ | .assign _ _ _ | .assignIndex _ _ _ _ | .call _ _ _ |
      .ifThen _ _ _ => rfl
  | .ret e _ => by cases e <;> rfl
  | .ifElse _ _ e _ => e.isOpen_unbound
  | .loop _ body _ => body.isOpen_unbound

mutual

theorem Stmt.elseNearest_unbound : ∀ s : Stmt, s.unbound.elseNearest = s.elseNearest
  | .block body _ => Stmt.elsesNearest_unbound body
  | .declare _ _ _ | .assign _ _ _ | .assignIndex _ _ _ _ | .call _ _ _ => rfl
  | .ret e _ => by cases e <;> rfl
  | .ifThen _ t _ => t.elseNearest_unbound
  | .ifElse _ t e _ => by
    rw [Stmt.unbound, Stmt.elseNearest, Stmt.elseNearest, t.isOpen_unbound, t.elseNearest_unbound,
      e.elseNearest_unbound]
  | .loop _ body _ => body.elseNearest_unbound

theorem Stmt.elsesNearest_unbound :
    ∀ ss : List Stmt, Stmt.elsesNearest (Stmt.unboundAll ss) = Stmt.elsesNearest ss
  | [] => rfl
  | s :: ss => by
    rw [Stmt.unboundAll, Stmt.elsesNearest, Stmt.elsesNearest, s.elseNearest_unbound,
      Stmt.elsesNearest_unbound ss]

end

theorem Program.elsesNearest_unbound (p : Program) : p.unbound.elsesNearest = p.elsesNearest := by
  simp [Program.elsesNearest, Program.unbound, ClassDecl.unbound, Method.unbound,
    Stmt.elsesNearest_unbound, Function.comp_def]

theorem TypeName.areSpelled {t : TypeName}
    (h : t.isResult = true) : Symbol.AreSpelled t.symbols := by
  cases t with
  | int span | boolean span | void span => simp [TypeName.symbols]
  | cls id => exact Symbol.areSpelled_cons.mpr ⟨h, Symbol.areSpelled_nil⟩
  | array elem span =>
    cases elem with
    | int span => simp [TypeName.symbols]
    | cls id => exact Symbol.areSpelled_cons.mpr ⟨h, by simp⟩
    | boolean span | void span | array elem span => cases h

theorem TypeName.isResult_of_isWritable {t : TypeName}
    (h : t.isWritable = true) : t.isResult = true := by
  cases t with
  | void span => rfl
  | _ => exact h

theorem TypeName.isResult_of_isElement {t : TypeName}
    (h : t.isElement = true) : t.isResult = true := by
  cases t with
  | int span => rfl
  | cls id => exact h
  | boolean span | void span | array elem span => cases h

theorem Ref.areSpelled {r : Ref} (h : r.isWritable = true) : Symbol.AreSpelled r.symbols := by
  induction r with
  | this span d => simp [Ref.symbols]
  | name id d => exact Symbol.areSpelled_cons.mpr ⟨h, Symbol.areSpelled_nil⟩
  | member q id d ih =>
    rw [Ref.isWritable, Bool.and_eq_true] at h
    simp [Ref.symbols, ih h.1, h.2]

theorem Literal.isSpelled_symbol {l : Literal}
    (h : l.isWritable = true) : l.symbol.isSpelled = true := by
  cases l with
  | int digits => exact Option.isSome_of_any h
  | bool b => cases b <;> rfl
  | null => rfl

theorem Expr.areSpelled_operandOf (e : Expr) {ss : List Symbol} :
    Symbol.AreSpelled (e.operandOf ss) ↔ Symbol.AreSpelled ss := by
  unfold Expr.operandOf
  split <;> simp

mutual

theorem Expr.areSpelled : ∀ e : Expr, e.isWritable = true → Symbol.AreSpelled e.symbols
  | .unary op _ e, h => by
    have hop : op.symbol.isSpelled = true := by cases op <;> rfl
    simp [Expr.symbols, Expr.areSpelled_operandOf, hop, Expr.areSpelled e h]
  | .binary _ _ l r, h => by
    rw [Expr.isWritable, Bool.and_eq_true] at h
    simp [Expr.symbols, Expr.areSpelled_operandOf, Expr.areSpelled l h.1, Expr.areSpelled r h.2]
  | .ref _, h => Ref.areSpelled h
  | .index _ i _, h => by
    rw [Expr.isWritable, Bool.and_eq_true] at h
    simp [Expr.symbols, Ref.areSpelled h.1, Expr.areSpelled i h.2]
  | .call _ args _, h => by
    rw [Expr.isWritable, Bool.and_eq_true] at h
    simp [Expr.symbols, Ref.areSpelled h.1, Expr.areSpelled_list args h.2]
  | .literal _ _, h => by simp [Expr.symbols, Literal.isSpelled_symbol h]
  | .newObject _ _, h => by
    rw [Expr.isWritable] at h
    simp [Expr.symbols, h]
  | .newArray _ size _, h => by
    rw [Expr.isWritable, Bool.and_eq_true] at h
    simp [Expr.symbols, TypeName.areSpelled (TypeName.isResult_of_isElement h.1),
      Expr.areSpelled size h.2]

theorem Expr.areSpelled_list :
    ∀ es : List Expr, Expr.areWritable es = true → Symbol.AreSpelled (Expr.listSymbols es)
  | [], _ => Symbol.areSpelled_nil
  | [e], h => Expr.areSpelled e (Bool.and_eq_true_iff.mp h).1
  | e :: f :: es, h => by
    rw [Expr.areWritable, Bool.and_eq_true] at h
    simp [Expr.listSymbols, Expr.areSpelled e h.1, Expr.areSpelled_list (f :: es) h.2]

end

theorem Variable.areSpelled {v : Variable}
    (h : v.isWritable = true) : Symbol.AreSpelled v.symbols := by
  rw [Variable.isWritable, Bool.and_eq_true] at h
  simp [Variable.symbols, TypeName.areSpelled (TypeName.isResult_of_isWritable h.1), h.2]

mutual

theorem Stmt.areSpelled : ∀ s : Stmt, s.isWritable = true → Symbol.AreSpelled s.symbols
  | .block body _, h => by simp [Stmt.symbols, Stmt.areSpelled_list body h]
  | .declare _ init _, h => by
    rw [Stmt.isWritable, Bool.and_eq_true] at h
    simp [Stmt.symbols, Variable.areSpelled h.1, Expr.areSpelled init h.2]
  | .assign _ value _, h => by
    rw [Stmt.isWritable, Bool.and_eq_true] at h
    simp [Stmt.symbols, Ref.areSpelled h.1, Expr.areSpelled value h.2]
  | .assignIndex _ i value _, h => by
    rw [Stmt.isWritable, Bool.and_eq_true, Bool.and_eq_true] at h
    simp [Stmt.symbols, Ref.areSpelled h.1.1, Expr.areSpelled i h.1.2, Expr.areSpelled value h.2]
  | .call _ args _, h => by
    rw [Stmt.isWritable, Bool.and_eq_true] at h
    simp [Stmt.symbols, Ref.areSpelled h.1, Expr.areSpelled_list args h.2]
  | .ret none _, _ => by simp [Stmt.symbols]
  | .ret (some value) _, h => by simp [Stmt.symbols, Expr.areSpelled value h]
  | .ifThen cond t _, h => by
    rw [Stmt.isWritable, Bool.and_eq_true] at h
    simp [Stmt.symbols, Expr.areSpelled cond h.1, Stmt.areSpelled t h.2]
  | .ifElse cond t e _, h => by
    rw [Stmt.isWritable, Bool.and_eq_true, Bool.and_eq_true] at h
    simp [Stmt.symbols, Expr.areSpelled cond h.1.1, Stmt.areSpelled t h.1.2, Stmt.areSpelled e h.2]
  | .loop cond body _, h => by
    rw [Stmt.isWritable, Bool.and_eq_true] at h
    simp [Stmt.symbols, Expr.areSpelled cond h.1, Stmt.areSpelled body h.2]

theorem Stmt.areSpelled_list :
    ∀ ss : List Stmt, Stmt.areWritable ss = true → Symbol.AreSpelled (Stmt.listSymbols ss)
  | [], _ => Symbol.areSpelled_nil
  | s :: ss, h => by
    rw [Stmt.areWritable, Bool.and_eq_true] at h
    simp [Stmt.listSymbols, Stmt.areSpelled s h.1, Stmt.areSpelled_list ss h.2]

end

theorem areSpelled_flatMap {α : Type} {symbols : α → List Symbol} {xs : List α}
    (h : ∀ x ∈ xs, Symbol.AreSpelled (symbols x)) : Symbol.AreSpelled (xs.flatMap symbols) := by
  intro s hs
  obtain ⟨x, hx, hsx⟩ := List.mem_flatMap.mp hs
  exact h x hx s hsx

theorem areSpelled_visibility (isPrivate : Bool) :
    Symbol.AreSpelled (visibilitySymbols isPrivate) := by
  simp [visibilitySymbols]

theorem areSpelled_access (isStatic : Bool) : Symbol.AreSpelled (accessSymbols isStatic) := by
  cases isStatic <;> simp [accessSymbols]

theorem Field.areSpelled {f : Field} (h : f.isWritable = true) : Symbol.AreSpelled f.symbols := by
  rw [Field.isWritable, Bool.and_eq_true] at h
  simp [Field.symbols, areSpelled_visibility, areSpelled_access,
    TypeName.areSpelled (TypeName.isResult_of_isWritable h.1), h.2]

theorem Variable.areSpelled_list {vs : List Variable} (h : ∀ v ∈ vs, v.isWritable = true) :
    Symbol.AreSpelled (Variable.listSymbols vs) := by
  fun_induction Variable.listSymbols vs with
  | case1 => exact Symbol.areSpelled_nil
  | case2 v => exact Variable.areSpelled (h v List.mem_cons_self)
  | case3 v w vs ih =>
    rw [List.forall_mem_cons] at h
    simp [Variable.areSpelled h.1, ih h.2]

theorem Method.areSpelled {m : Method} (h : m.isWritable = true) : Symbol.AreSpelled m.symbols := by
  rw [Method.isWritable, Bool.and_eq_true, Bool.and_eq_true, Bool.and_eq_true, List.all_eq_true]
    at h
  simp [Method.symbols, paramSymbols, areSpelled_visibility, areSpelled_access,
    TypeName.areSpelled h.1.1.1, h.1.1.2, Variable.areSpelled_list h.1.2,
    Stmt.areSpelled_list m.body h.2]

theorem ClassDecl.areSpelled {c : ClassDecl}
    (h : c.isWritable = true) : Symbol.AreSpelled c.symbols := by
  rw [ClassDecl.isWritable, Bool.and_eq_true, Bool.and_eq_true, List.all_eq_true, List.all_eq_true]
    at h
  have hfields := areSpelled_flatMap fun f hf => Field.areSpelled (h.1.2 f hf)
  have hmethods := areSpelled_flatMap fun m hm => Method.areSpelled (h.2 m hm)
  simp [ClassDecl.symbols, h.1.1, hfields, hmethods]

theorem Program.areSpelled {p : Program}
    (h : p.isWritable = true) : Symbol.AreSpelled p.symbols := by
  rw [Program.isWritable, List.all_eq_true] at h
  exact areSpelled_flatMap fun c hc => ClassDecl.areSpelled (h c hc)

/-- Parsing undoes printing: the source text of a program has no lexical fault and is parsed, and
what is parsed is the program, up to the lines where its phrases stand and before its names are
resolved. -/
theorem Program.parse_print {p : Program} (hwritable : p.isWritable = true)
    (hnearest : p.elsesNearest = true) :
    Scan.messages (Scan.tokens p.print) = [] ∧
      ∃ q, Program.parse p.print = .ok q ∧ q.shape = p.unbound.shape := by
  have hspelled := Program.areSpelled hwritable
  constructor
  · exact Scan.messages_spaced hspelled
  · obtain ⟨last, htokens⟩ := Scan.tokens_spaced hspelled
    have hsymbols : (Scan.tokens p.print).map (·.symbol) = p.symbols ++ [Symbol.endOfText] := by
      rw [Program.print, htokens, List.map_append, List.map_map]
      simp [Function.comp_def]
    have helses : p.unbound.shape.elsesNearest = true := by
      rw [Program.elsesNearest_shape, Program.elsesNearest_unbound, hnearest]
    exact Program.ofTokens_of_spells hsymbols (Grammar.spells_program hwritable) helses

/-- Signs beside each other, parentheses that leave no node, and an `if` after an `else`. -/
def nestedSigns : Program :=
  let one : Expr := .unary .neg blank (.literal (.int "1") blank)
  let minusX : Expr := .unary .neg blank (.ref (.name ⟨"x", blank⟩ none))
  let cond : Expr :=
    .unary .not blank
      (.binary .lt blank (.binary .sub blank one minusX) (.literal (.int "0") blank))
  let truth : Stmt := .ret (some (.literal (.bool true) blank)) blank
  let falsehood : Stmt := .ret (some (.literal (.bool false) blank)) blank
  ⟨[⟨⟨"A", blank⟩, blank, [],
    [⟨⟨"f", .boolean blank, blank, false, false, [⟨"x", .int blank, blank⟩]⟩,
    [.ifElse cond truth (.ifThen cond falsehood blank) blank, truth]⟩]⟩], blank⟩

example :
    Symbol.spaced nestedSigns.symbols =
      "class A \x7b public boolean f ( int x ) \x7b " ++
        "if ( ! ( ( ( - 1 ) - ( - x ) ) < 0 ) ) return true ; else " ++
          "if ( ! ( ( ( - 1 ) - ( - x ) ) < 0 ) ) return false ; return true ; \x7d \x7d" := by
  decide +kernel

theorem nestedSigns_parsed : nestedSigns.isWritable = true ∧ nestedSigns.elsesNearest = true ∧
    Scan.messages (Scan.tokens nestedSigns.print) = [] ∧
    ∃ q, Program.parse nestedSigns.print = .ok q ∧ q.shape = nestedSigns.unbound.shape :=
  ⟨by decide, by decide, Program.parse_print (by decide) (by decide)⟩

end MiniJava
