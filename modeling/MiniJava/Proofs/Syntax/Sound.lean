import MiniJava.Proofs.Syntax.Reading
/-!
What is read is spelled by the grammar: the symbols that a reader has passed spell the shape of its
outcome.
-/
namespace MiniJava

theorem TypeName.ty_shape (t : TypeName) : t.shape.ty = t.ty := by
  induction t with
  | int | boolean | void | cls => rfl
  | array elem span ih => rw [TypeName.shape, TypeName.ty, ih, TypeName.ty]

namespace Grammar

open Precedence

/-- Operators with their right operands, where `P` says what spells an operand. -/
inductive Operations (P : List Symbol → Expr → Prop) : List Symbol → List (BinaryOp × Expr) → Prop
  | nil : Operations P [] []
  | cons {op ss e ss' rest} : P ss e → Operations P ss' rest →
      Operations P (.binary op :: (ss ++ ss')) ((op, e) :: rest)

theorem Operations.append {P : List Symbol → Expr → Prop} {ss ss' : List Symbol}
    {xs ys : List (BinaryOp × Expr)} (hx : Operations P ss xs)
    (hy : Operations P ss' ys) : Operations P (ss ++ ss') (xs ++ ys) := by
  induction hx with
  | nil => exact hy
  | cons he _ ih =>
    rw [List.cons_append, List.append_assoc]
    exact .cons he ih

theorem Operations.split {P : List Symbol → Expr → Prop} {ss : List Symbol}
    {xs ys : List (BinaryOp × Expr)} (h : Operations P ss (xs ++ ys)) :
    ∃ ss₁ ss₂, ss = ss₁ ++ ss₂ ∧ Operations P ss₁ xs ∧ Operations P ss₂ ys := by
  induction xs generalizing ss with
  | nil => exact ⟨[], ss, rfl, .nil, h⟩
  | cons x xs ih =>
    cases h with
    | @cons op us e us' _ he h =>
      obtain ⟨ss₁, ss₂, rfl, hx, hy⟩ := ih h
      refine ⟨.binary op :: (us ++ ss₁), ss₂, ?_, .cons he hx, hy⟩
      rw [List.cons_append, List.append_assoc]

theorem SpellsExpr.weaken {s t : Nat} {ss : List Symbol} {e : Expr} (h : SpellsExpr t ss e)
    (hs : s ≤ t) : SpellsExpr s ss e := by
  induction hs with
  | refl => exact h
  | step _ ih => exact ih h.tighter

theorem SpellsOperand.expr {t : Nat} {ss : List Symbol} {e : Expr} (h : SpellsOperand ss e)
    (ht : t ≤ 7) : SpellsExpr t ss e :=
  (SpellsExpr.operand h).weaken ht

theorem one_le_priority (op : BinaryOp) : 1 ≤ op.priority := by
  cases op <;> decide

theorem priority_le_six (op : BinaryOp) : op.priority ≤ 6 := by
  cases op <;> decide

theorem mem_tier {op : BinaryOp} {t : Nat} : op ∈ tier t ↔ op.priority = t := by
  constructor
  · intro h
    unfold tier at h
    split at h <;> simp only [List.mem_cons, List.not_mem_nil, or_false]
      at h <;> grind [BinaryOp.priority]
  · rintro rfl
    cases op <;> decide

/-- Trees of operators as expressions. -/
abbrev GroupsExpr := Groups BinaryOp.priority fun op => Expr.binary op blank

theorem SpellsResult.type_of_ne_void {ss : List Symbol} {t : TypeName} (h : SpellsResult ss t)
    (ht : t.ty ≠ .void) : SpellsType ss t := by
  cases h with
  | void => exact absurd rfl ht
  | type h => exact h

theorem GroupsExpr.spells {t : Nat} {ss ss' : List Symbol} {a e : Expr}
    {rest : List (BinaryOp × Expr)} (h : GroupsExpr t a rest e) (ht : t ≤ 7)
    (ha : SpellsOperand ss a)
    (hrest : Operations SpellsOperand ss' rest) : SpellsExpr t (ss ++ ss') e := by
  induction h generalizing ss ss' with
  | term =>
    cases hrest
    rw [List.append_nil]
    exact ha.expr ht
  | @node t op a b left right l r hop hl hr ihl ihr =>
    obtain ⟨us, vs, rfl, hleft, hright⟩ := hrest.split
    cases hright with
    | @cons _ ws _ ws' _ hb hright =>
      have hop6 := priority_le_six op
      have hl := ihl (by omega) ha hleft
      have hr := ihr (by omega) hb hright
      rw [← List.append_assoc]
      exact (SpellsExpr.binary (mem_tier.mpr rfl) hl hr).weaken hop

end Grammar

namespace Parser

open Grammar

theorem reads_arraySuffix (elem : TypeName) :
    Reads (arraySuffix elem) fun ss t _ =>
      (ss = [] ∧ t = elem) ∨
      (ss = [.punct .leftBracket, .punct .rightBracket] ∧ t.shape = .array elem.shape blank) := by
  refine fun s => .peek ?_
  split
  · exact .advance Symbol.noConfusion fun _ => .punct fun _ => .passed fun _ =>
      .pure (.inr ⟨rfl, rfl⟩)
  · exact .pure (.inl ⟨rfl, rfl⟩)

theorem reads_typeName : Reads typeName fun ss t _ => SpellsType ss t.shape := by
  refine fun s => .peek ?_
  split
  · exact .here fun _ => .advance Symbol.noConfusion fun _ => .pure .boolean
  · refine .here fun span => .advance Symbol.noConfusion fun _ =>
      (reads_arraySuffix (.int span) _).mono ?_
    rintro ss t - (⟨rfl, rfl⟩ | ⟨rfl, hshape⟩)
    · exact .int
    · rw [hshape]
      exact .intArray
  · refine .identifier fun x span _ => (reads_arraySuffix (.cls ⟨x, span⟩) _).mono ?_
    rintro ss t - (⟨rfl, rfl⟩ | ⟨rfl, hshape⟩)
    · exact .cls
    · rw [hshape]
      exact .clsArray
  · exact .throw

theorem reads_members (n : Nat) {rs : List Symbol} {r : Ref} (hr : SpellsRef rs r.shape) :
    Reads (members n r) fun ss r' _ => SpellsRef (rs ++ ss) r'.shape := by
  induction n generalizing rs r with
  | zero => exact fun _ => .throw
  | succ n ih =>
    refine fun s => .peek ?_
    split
    · refine .advance Symbol.noConfusion fun _ => .identifier fun x span _ => ?_
      have hmember :
          SpellsRef (rs ++ [Symbol.punct .dot, .identifier x])
          (Ref.member r ⟨x, span⟩ none).shape := .member hr
      refine (ih hmember _).mono fun ss r' _ h => ?_
      rw [List.append_assoc] at h
      exact h
    · refine .pure ?_
      rw [List.append_nil]
      exact hr

theorem reads_reference : Reads reference fun ss r _ => SpellsRef ss r.shape := by
  refine fun s => .peek ?_
  split
  · refine .here fun span => .advance Symbol.noConfusion fun _ => .bounded fun n => ?_
    have hthis : SpellsRef [.keyword .thisWord] (Ref.this span none).shape := .this
    exact reads_members n hthis _
  · refine .identifier fun x span _ => .bounded fun n => ?_
    have hname : SpellsRef [.identifier x] (Ref.name ⟨x, span⟩ none).shape := .name
    exact reads_members n hname _
  · exact .throw

theorem reads_literal {l : Literal} {s : Symbol} (hs : s ≠ .endOfText)
    (h : SpellsOperand [s] (.literal l blank)) :
    ReadsAt s (literal l) fun ss e _ => SpellsOperand ss e.shape :=
  .here fun _ => .advance hs fun _ => .pure h

/-- The tree of an expression groups its operators. -/
theorem groups_shape (first : Expr) (rest : List ((BinaryOp × Span) × Expr)) :
    GroupsExpr 1 first.shape (rest.map fun x => (x.1.1, x.2.shape))
      (Precedence.tree (fun op : BinaryOp × Span => op.1.priority)
      (fun op => .binary op.1 op.2) first rest).shape := by
  have hgroups : Precedence.Groups (fun op : BinaryOp × Span => op.1.priority)
      (fun op => Expr.binary op.1 op.2) 0 first rest _ :=
    Precedence.tree_eq_iff.mp rfl
  have hshape : GroupsExpr 0 first.shape (rest.map fun x => (x.1.1, x.2.shape)) _ :=
    hgroups.map (g := Prod.fst) (f := Expr.shape) (fun _ => rfl) fun _ _ _ => rfl
  generalize Expr.shape (Precedence.tree _ _ first rest) = e at hshape ⊢
  generalize rest.map _ = ops at hshape ⊢
  cases hshape with
  | term => exact .term
  | node _ hl hr => exact .node (one_le_priority _) hl hr

theorem unaryOp?_eq_some {s : Symbol} {op : UnaryOp} (h : unaryOp? s = some op) :
    (s = .not ∧ op = .not) ∨ (s = .binary .sub ∧ op = .neg) := by
  unfold unaryOp? at h
  split at h
  · cases h
    exact .inl ⟨rfl, rfl⟩
  · cases h
    exact .inr ⟨rfl, rfl⟩
  · cases h

mutual

theorem reads_expression : ∀ n, Reads (expressionWithin n) fun ss e _ => SpellsExpr 1 ss e.shape
  | 0 => fun _ => .throw
  | n + 1 => by
    rw [expressionWithin]
    refine fun s => (reads_operand n s).bind fun first ss _ hfirst => ?_
    refine (reads_operations n _).bind fun rest ss' _ hrest => .pure ?_
    rw [List.append_nil]
    exact (groups_shape first rest).spells (by decide) hfirst hrest

theorem reads_operations : ∀ n, Reads (operationsWithin n) fun ss ops _ =>
    Operations SpellsOperand ss (ops.map fun x => (x.1.1, x.2.shape))
  | 0 => fun _ => .throw
  | n + 1 => by
    rw [operationsWithin]
    refine fun s => .peek ?_
    split
    · refine .here fun span => .advance Symbol.noConfusion fun _ =>
        (reads_operand n _).bind fun e ss _ he => ?_
      refine (reads_operations n _).bind fun ops ss' _ hops => .pure ?_
      rw [List.append_nil]
      exact .cons he hops
    · exact .pure .nil

theorem reads_operand : ∀ n, Reads (operandWithin n) fun ss e _ => SpellsOperand ss e.shape
  | 0 => fun _ => .throw
  | n + 1 => by
    rw [operandWithin]
    refine fun s => .peek ?_
    split
    · rename_i op hop
      refine .here fun span => ?_
      obtain ⟨rfl, rfl⟩ | ⟨rfl, rfl⟩ := unaryOp?_eq_some hop
      · refine .advance Symbol.noConfusion fun _ => (reads_operand n _).bind fun e ss _ he =>
          .pure ?_
        rw [List.append_nil]
        exact .not he
      · refine .advance Symbol.noConfusion fun _ => (reads_operand n _).bind fun e ss _ he =>
          .pure ?_
        rw [List.append_nil]
        exact .neg he
    · split
      · exact .advance Symbol.noConfusion fun _ => (reads_expression n _).bind fun e ss _ he =>
          .punct fun _ =>
          .pure (.paren he)
      · split
        · exact .throw
        · rename_i digits hdigits
          exact reads_literal Symbol.noConfusion (.num (Nat.le_of_not_lt hdigits))
      · exact reads_literal Symbol.noConfusion .trueWord
      · exact reads_literal Symbol.noConfusion .falseWord
      · exact reads_literal Symbol.noConfusion .nullWord
      · exact reads_creation n
      · exact reads_application n _
      · exact reads_application n _
      · exact .throw

theorem reads_application : ∀ n, Reads (applicationWithin n) fun ss e _ => SpellsOperand ss e.shape
  | 0 => fun _ => .throw
  | n + 1 => by
    rw [applicationWithin]
    refine fun s => .here fun span => (reads_reference s).bind fun r ss _ hr => .peek ?_
    split
    · exact .advance Symbol.noConfusion fun _ => (reads_expression n _).bind fun i ss' _ hi =>
        .punct fun _ =>
        .passed fun _ => .pure (.index hr hi)
    · refine (reads_arguments n _).bind fun args ss' _ hargs => .passed fun _ => .pure ?_
      rw [List.append_nil]
      exact .call hr hargs
    · refine .pure ?_
      rw [List.append_nil]
      exact .ref hr

theorem reads_creation :
    ∀ n, ReadsAt (.keyword .newWord) (creationWithin n) fun ss e _ => SpellsOperand ss e.shape
  | 0 => .throw
  | n + 1 => by
    rw [creationWithin]
    refine .here fun start => .advance Symbol.noConfusion fun _ => .peek ?_
    split
    · refine .here fun span => .advance Symbol.noConfusion fun _ =>
        (reads_newArray n start (.int span) _).mono ?_
      rintro ss e - ⟨is, i, rfl, hi, hshape⟩
      rw [hshape]
      exact .newIntArray hi
    · refine .identifier fun x span _ => .peek ?_
      split
      · exact .advance Symbol.noConfusion fun _ => .punct fun _ => .passed fun _ => .pure .newObject
      · refine (reads_newArray n start (.cls ⟨x, span⟩) _).mono ?_
        rintro ss e - ⟨is, i, rfl, hi, hshape⟩
        rw [hshape]
        exact .newClsArray hi
    · exact .throw

theorem reads_newArray : ∀ n start elem, Reads (newArrayWithin n start elem) fun ss e _ =>
    ∃ is i, ss = .punct .leftBracket :: (is ++ [Symbol.punct .rightBracket]) ∧ SpellsExpr 1 is i ∧
      e.shape = .newArray elem.shape i blank
  | 0, _, _ => fun _ => .throw
  | n + 1, _, _ => by
    rw [newArrayWithin]
    exact fun s => .punct fun _ => (reads_expression n _).bind fun i is _ hi => .punct fun _ =>
      .passed fun _ =>
      .pure ⟨is, i.shape, rfl, hi, rfl⟩

theorem reads_arguments :
    ∀ n, Reads (argumentsWithin n) fun ss args _ => SpellsArgs ss (Expr.shapes args)
  | 0 => fun _ => .throw
  | n + 1 => by
    rw [argumentsWithin]
    refine fun s => .punct fun _ => .peek ?_
    split
    · exact .advance Symbol.noConfusion fun _ => .pure .nil
    · exact (reads_expressions n _).bind fun es ss _ hes => .punct fun _ => .pure (.list hes)

theorem reads_expressions :
    ∀ n, Reads (expressionsWithin n) fun ss es _ => SpellsExprs ss (Expr.shapes es)
  | 0 => fun _ => .throw
  | n + 1 => by
    rw [expressionsWithin]
    refine fun s => (reads_expression n s).bind fun e ss _ he => .peek ?_
    split
    · refine .advance Symbol.noConfusion fun _ => (reads_expressions n _).bind fun es ss' _ hes =>
        .pure ?_
      rw [List.append_nil]
      exact .cons he hes
    · refine .pure ?_
      rw [List.append_nil]
      exact .single he

end

theorem reads_wholeExpression : Reads expression fun ss e _ => SpellsExpr 1 ss e.shape :=
  fun s => .bounded fun n => reads_expression n s

theorem reads_condition : Reads condition fun ss e _ =>
    ∃ cs, ss = .punct .leftParen :: (cs ++ [Symbol.punct .rightParen]) ∧ SpellsExpr 1 cs e.shape :=
  fun _ => .punct fun _ => (reads_wholeExpression _).bind fun _ cs _ hc => .punct fun _ =>
    .pure ⟨cs, rfl, hc⟩

/-- A statement that is read gives every `else` to the nearest `if`, and no `else` follows it that
it could take. -/
structure StmtRead (ss : List Symbol) (s : Stmt) (next : Symbol) : Prop where
  spells : SpellsStmt ss s.shape
  nearest : s.elseNearest = true
  ended : s.isOpen = true → next ≠ .keyword .elseWord

theorem StmtRead.plain {ss : List Symbol} {s : Stmt} {next : Symbol} (h : SpellsStmt ss s.shape)
    (hs : s.elseNearest = true ∧ s.isOpen = false) : StmtRead ss s next := by
  refine ⟨h, hs.1, fun hopen => ?_⟩
  rw [hs.2] at hopen
  cases hopen

theorem reads_declarationRest {ts : List Symbol} {t : TypeName} (start : Span)
    (ht : SpellsType ts t.shape) : Reads (declarationRest t start) fun ss => StmtRead (ts ++ ss) :=
  fun _ => .identifier fun _ _ _ => .punct fun _ => (reads_wholeExpression _).bind fun _ _ _ he =>
    .punct fun _ =>
    .passed fun _ => .pure (.plain (.declare ht he) ⟨rfl, rfl⟩)

theorem reads_indexAssignmentRest {rs : List Symbol} {r : Ref} (start : Span)
    (hr : SpellsRef rs r.shape) :
    Reads (indexAssignmentRest r start) fun ss => StmtRead (rs ++ .punct .leftBracket :: ss) :=
  fun _ => (reads_wholeExpression _).bind fun _ _ _ hi => .punct fun _ => .punct fun _ =>
    (reads_wholeExpression _).bind fun _ _ _ he => .punct fun _ => .passed fun _ =>
      .pure (.plain (.assignIndex hr hi he) ⟨rfl, rfl⟩)

theorem reads_actionRest {rs : List Symbol} {r : Ref} (start : Span) (hr : SpellsRef rs r.shape) :
    Reads (actionRest r start) fun ss => StmtRead (rs ++ ss) := by
  refine fun s => .peek ?_
  split
  · exact .advance Symbol.noConfusion fun _ => (reads_wholeExpression _).bind fun _ _ _ he =>
      .punct fun _ =>
      .passed fun _ => .pure (.plain (.assign hr he) ⟨rfl, rfl⟩)
  · exact .advance Symbol.noConfusion (reads_indexAssignmentRest start hr)
  · refine ReadsAt.bind (.bounded fun n => reads_arguments n _) fun args ss _ hargs =>
      .punct fun _ => .passed fun _ => ?_
    exact .pure (.plain (.call hr hargs) ⟨rfl, rfl⟩)
  · exact .throw

theorem reads_nameStatement : Reads nameStatement StmtRead := by
  refine fun s => .here fun start => .identifier fun x span _ => .peek ?_
  have hname : SpellsRef [.identifier x] (Ref.name ⟨x, span⟩ none).shape := .name
  split
  · have hcls : SpellsType [.identifier x] (TypeName.cls ⟨x, span⟩).shape := .cls
    exact reads_declarationRest start hcls _
  · refine .advance Symbol.noConfusion fun _ => .peek ?_
    split
    · refine .advance Symbol.noConfusion fun _ => .passed fun last => ?_
      have harray : SpellsType [.identifier x, .punct .leftBracket, .punct .rightBracket]
        (TypeName.array (.cls ⟨x, span⟩) (start.through last)).shape := .clsArray
      exact reads_declarationRest start harray _
    · exact reads_indexAssignmentRest start hname _
  · exact ReadsAt.bind (.bounded fun n => reads_members n hname _) fun r ss _ hr =>
      reads_actionRest start hr _

theorem reads_returnStatement : ReadsAt (.keyword .returnWord) returnStatement StmtRead := by
  refine .here fun start => .advance Symbol.noConfusion fun _ => .peek ?_
  split
  · exact .advance Symbol.noConfusion fun _ => .passed fun _ => .pure (.plain .retVoid ⟨rfl, rfl⟩)
  · exact (reads_wholeExpression _).bind fun _ _ _ he => .punct fun _ => .passed fun _ =>
      .pure (.plain (.ret he) ⟨rfl, rfl⟩)

mutual

theorem reads_statement : ∀ n, Reads (statementWithin n) StmtRead
  | 0 => fun _ => .throw
  | n + 1 => by
    rw [statementWithin]
    refine fun s => .here fun start => .peek ?_
    split
    · refine .advance Symbol.noConfusion fun _ => (reads_statements n _).bind fun body ss _ hbody =>
        .passed fun _ => .pure ?_
      obtain ⟨bs, rfl, hspells, hnearest⟩ := hbody
      rw [List.append_nil]
      exact .plain (.block hspells) ⟨hnearest, rfl⟩
    · exact (reads_typeName _).bind fun t ts _ ht => reads_declarationRest start ht _
    · exact (reads_typeName _).bind fun t ts _ ht => reads_declarationRest start ht _
    · exact reads_nameStatement _
    · exact (reads_reference _).bind fun r rs _ hr => reads_actionRest start hr _
    · exact reads_returnStatement
    · refine .advance Symbol.noConfusion fun _ => (reads_condition _).bind fun cond ss _ hcond => ?_
      obtain ⟨cs, rfl, hcond⟩ := hcond
      refine (reads_statement n _).bind fun t ts next ht => .peek ?_
      split
      · -- the branch before the `else` could not take it
        have hclosed : t.isOpen = false := Bool.eq_false_iff.mpr fun hopen => ht.ended hopen rfl
        refine .advance Symbol.noConfusion fun _ => (reads_statement n _).bind fun e es _ he =>
          .passed fun _ => .pure ?_
        refine ⟨by simpa [Stmt.shape] using SpellsStmt.ifElse hcond ht.spells he.spells, ?_,
          he.ended⟩
        rw [Stmt.elseNearest, hclosed, ht.nearest, he.nearest]
        rfl
      · rename_i hnext
        refine .passed fun _ => .pure ?_
        exact ⟨by simpa [Stmt.shape] using SpellsStmt.ifThen hcond ht.spells, ht.nearest,
          fun _ => hnext⟩
    · refine .advance Symbol.noConfusion fun _ => (reads_condition _).bind fun cond ss _ hcond => ?_
      obtain ⟨cs, rfl, hcond⟩ := hcond
      refine (reads_statement n _).bind fun b bs _ hb => .passed fun _ => .pure ?_
      exact ⟨by simpa [Stmt.shape] using SpellsStmt.loop hcond hb.spells, hb.nearest, hb.ended⟩
    · exact .throw

theorem reads_statements :
    ∀ n, Reads (statementsWithin n) fun ss body _ =>
      ∃ bs, ss = bs ++ [Symbol.punct .rightBrace] ∧ SpellsStmts bs (Stmt.shapes body) ∧
      Stmt.elsesNearest body = true
  | 0 => fun _ => .throw
  | n + 1 => by
    rw [statementsWithin]
    refine fun s => .peek ?_
    split
    · exact .advance Symbol.noConfusion fun _ => .pure ⟨[], rfl, .nil, rfl⟩
    · refine (reads_statement n _).bind fun s ss _ hs =>
        (reads_statements n _).bind fun body ss' _ hbody => .pure ?_
      obtain ⟨bs, rfl, hspells, hnearest⟩ := hbody
      refine ⟨ss ++ bs, by simp, .cons hs.spells hspells, ?_⟩
      rw [Stmt.elsesNearest, hs.nearest, hnearest]
      rfl

end

theorem reads_parameters :
    ∀ n, Reads (parametersWithin n) fun ss vs _ => SpellsParams ss (vs.map Variable.shape)
  | 0 => fun _ => .throw
  | n + 1 => by
    rw [parametersWithin]
    refine fun s => .here fun start => (reads_typeName _).bind fun t ts _ ht =>
      .identifier fun x span _ => .peek ?_
    split
    · refine .advance Symbol.noConfusion fun _ => (reads_parameters n _).bind fun vs ss _ hvs =>
        .pure ?_
      rw [List.append_nil]
      exact .cons ht hvs
    · exact .pure (.single ht)

theorem reads_visibility :
    Reads visibility fun ss isPrivate _ => SpellsVisibility ss isPrivate := by
  refine fun s => .peek ?_
  split
  · exact .advance Symbol.noConfusion fun _ => .pure .publicWord
  · exact .advance Symbol.noConfusion fun _ => .pure .privateWord
  · exact .pure .unmarked

theorem reads_access : Reads access fun ss isStatic _ => SpellsAccess ss isStatic := by
  refine fun s => .peek ?_
  split
  · exact .advance Symbol.noConfusion fun _ => .pure .staticWord
  · exact .pure .instanceMember

theorem reads_resultType : Reads resultType fun ss t _ => SpellsResult ss t.shape := by
  refine fun s => .peek ?_
  split
  · exact .here fun _ => .advance Symbol.noConfusion fun _ => .pure .void
  · exact (reads_typeName _).mono fun _ _ _ h => .type h

theorem reads_optionalParameters : Reads optionalParameters fun ss vs _ =>
    (ss = [] ∧ vs = []) ∨ SpellsParams ss (vs.map Variable.shape) := by
  refine fun s => .peek ?_
  split
  · exact .pure (.inl ⟨rfl, rfl⟩)
  · exact .bounded fun n => (reads_parameters n _).mono fun _ _ _ h => .inr h

def Member.shape : Member → Member
  | .field f => .field f.shape
  | .method m => .method m.shape

/-- A member that is read: the bodies of methods give every `else` to the nearest `if`. -/
structure MemberRead (ss : List Symbol) (m : Member) : Prop where
  spells : SpellsMember ss m.shape
  nearest : ∀ x, m.method? = some x → Stmt.elsesNearest x.body = true

theorem reads_methodRest {vs as ts : List Symbol} {isPrivate isStatic : Bool} {t : TypeName}
    {x : String} (start : Span) (hv : SpellsVisibility vs isPrivate)
    (ha : SpellsAccess as isStatic) (ht : SpellsResult ts t.shape) :
    Reads (methodRest start isPrivate isStatic t x) fun ss m _ =>
      MemberRead (vs ++ (as ++ (ts ++ .identifier x :: ss))) (.method m) := by
  refine fun s => .punct fun _ => (reads_optionalParameters _).bind fun params ps _ hparams =>
    .punct fun _ => .punct fun _ => ?_
  refine ReadsAt.bind (.bounded fun n => reads_statements n _) fun body ss _ hbody =>
    .passed fun _ => .pure ?_
  obtain ⟨bs, rfl, hspells, hnearest⟩ := hbody
  have hlist :
      SpellsParamList (.punct .leftParen :: (ps ++ [Symbol.punct .rightParen]))
      (params.map Variable.shape) := by
    rcases hparams with ⟨rfl, rfl⟩ | hparams
    · exact .nil
    · exact .list hparams
  refine ⟨?_, ?_⟩
  · simpa [Member.shape, Method.shape] using SpellsMember.method (x := x) hv ha ht hlist hspells
  · intro m hm
    cases hm
    exact hnearest

theorem reads_member : Reads member fun ss m _ => MemberRead ss m := by
  refine fun s => .here fun start => (reads_visibility s).bind fun isPrivate vs _ hv => ?_
  refine (reads_access _).bind fun isStatic as _ ha => (reads_resultType _).bind fun t ts _ ht => ?_
  refine .identifier fun x span _ => .peek ?_
  split
  · rename_i h
    obtain ⟨rfl, hvoid⟩ := h
    refine .advance Symbol.noConfusion fun _ => .passed fun _ => .pure ⟨?_, fun _ h => by cases h⟩
    exact .field hv ha (ht.type_of_ne_void (t.ty_shape ▸ hvoid))
  · refine (reads_methodRest start hv ha ht _).bind fun m ss _ hm => .pure ?_
    rw [List.append_nil]
    exact hm

theorem reads_membersUntilBrace : ∀ n, Reads (membersUntilBrace n) fun ss ms _ =>
    ∃ bs, ss = bs ++ [Symbol.punct .rightBrace] ∧ SpellsMembers bs (ms.map Member.shape) ∧
      ∀ x ∈ ms.filterMap Member.method?, Stmt.elsesNearest x.body = true
  | 0 => fun _ => .throw
  | n + 1 => by
    rw [membersUntilBrace]
    refine fun s => .peek ?_
    split
    · exact .advance Symbol.noConfusion fun _ => .pure ⟨[], rfl, .nil, fun _ h => by cases h⟩
    · refine (reads_member _).bind fun m ss _ hm =>
        (reads_membersUntilBrace n _).bind fun ms ss' _ hms => .pure ?_
      obtain ⟨bs, rfl, hspells, hnearest⟩ := hms
      refine ⟨ss ++ bs, by simp, .cons hm.spells hspells, ?_⟩
      intro x hx
      obtain ⟨m', hm', hx'⟩ := List.mem_filterMap.mp hx
      rcases List.mem_cons.mp hm' with rfl | hm'
      · exact hm.nearest x hx'
      · exact hnearest x (List.mem_filterMap.mpr ⟨m', hm', hx'⟩)

theorem filterMap_field?_shape (ms : List Member) :
    (ms.map Member.shape).filterMap Member.field? =
      (ms.filterMap Member.field?).map Field.shape := by
  rw [List.filterMap_map, List.map_filterMap]
  congr 1
  funext m
  cases m <;> rfl

theorem filterMap_method?_shape (ms : List Member) :
    (ms.map Member.shape).filterMap Member.method? =
      (ms.filterMap Member.method?).map Method.shape := by
  rw [List.filterMap_map, List.map_filterMap]
  congr 1
  funext m
  cases m <;> rfl

theorem reads_classDecl : ReadsAt (.keyword .classWord) classDecl fun ss c _ =>
    SpellsClass ss c.shape ∧ ∀ m ∈ c.methods, Stmt.elsesNearest m.body = true := by
  refine .here fun start => .advance Symbol.noConfusion fun _ => .identifier fun x span _ =>
    .punct fun _ => ?_
  refine ReadsAt.bind (.bounded fun n => reads_membersUntilBrace n _) fun ms ss _ hms =>
    .passed fun last => .pure ?_
  obtain ⟨bs, rfl, hspells, hnearest⟩ := hms
  refine ⟨?_, hnearest⟩
  rw [List.append_nil, ClassDecl.shape, ← filterMap_field?_shape, ← filterMap_method?_shape]
  exact .mk hspells

theorem reads_classes :
    ∀ n, Reads (classes n) fun ss cs _ =>
      SpellsClasses ss (cs.map ClassDecl.shape) ∧ ∀ c ∈ cs, ∀ m ∈ c.methods,
      Stmt.elsesNearest m.body = true
  | 0 => fun _ => .throw
  | n + 1 => by
    rw [classes]
    refine fun s => .peek ?_
    split
    · refine reads_classDecl.bind fun c ss _ hc => (reads_classes n _).bind fun cs ss' _ hcs =>
        .pure ?_
      rw [List.append_nil]
      exact ⟨.cons hc.1 hcs.1, List.forall_mem_cons.mpr ⟨hc.2, hcs.2⟩⟩
    · exact .pure ⟨.nil, List.forall_mem_nil _⟩

/-- The end of the text is read if it is at hand, and not passed. -/
theorem expect_eq_ok {x : Symbol} {u : Unit} {c c' : Cursor}
    (h : expect x c = .ok u c') : c.current.symbol = x := by
  obtain ⟨s, c₁, hpeek, h⟩ := EStateM.bind_eq_ok.mp h
  cases hpeek
  split at h
  · assumption
  · cases h

end Parser

/-- A program that is read is the one that its tokens spell. -/
theorem Program.spells_of_ofTokens {ts : List Token} {body : List Symbol} {p : Program}
    (hts : ts.map (·.symbol) = body ++ [Symbol.endOfText]) (hbody : .endOfText ∉ body)
    (h : Program.ofTokens ts = .ok p) :
    Grammar.SpellsProgram body p.shape ∧ p.elsesNearest = true := by
  have hstart : (Cursor.start ts).symbols = body ++ [Symbol.endOfText] := by
    rw [Cursor.symbols_start, hts]
    rintro rfl
    simp at hts
  unfold Program.ofTokens at h
  split at h
  · rename_i q c' hq
    cases h
    obtain ⟨start, c₁, hhere, hq⟩ := EStateM.bind_eq_ok.mp hq
    cases hhere
    obtain ⟨cs, c₂, hcs, hq⟩ := EStateM.bind_eq_ok.mp hq
    obtain ⟨u, c₃, hend, hq⟩ := EStateM.bind_eq_ok.mp hq
    obtain ⟨last, c₄, hpassed, hq⟩ := EStateM.bind_eq_ok.mp hq
    cases hpassed
    cases hq
    have hended : (Cursor.start ts).Ended := ⟨body, hstart, hbody⟩
    obtain ⟨hc₂, ss, hss, hspells, hnearest⟩ := Parser.reads_classes _ _ _ cs c₂ hended rfl hcs
    have hrest : c₂.symbols = [.endOfText] := by
      obtain ⟨rest, hrest, hnot⟩ := hc₂
      cases rest with
      | nil => exact hrest
      | cons s rest =>
        have hs : c₂.current.symbol = s := (List.cons.inj hrest).1
        rw [Parser.expect_eq_ok hend] at hs
        exact absurd (hs ▸ List.mem_cons_self) hnot
    obtain ⟨rfl, -⟩ : body = ss ∧ _ :=
      List.append_inj' (hstart.symm.trans (hss.trans (congrArg (ss ++ ·) hrest))) rfl
    refine ⟨.mk hspells, ?_⟩
    simpa [Program.elsesNearest] using hnearest
  · cases h

end MiniJava
