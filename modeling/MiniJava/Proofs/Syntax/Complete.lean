import MiniJava.Proofs.Syntax.Sound
/-!
What the grammar spells is read. A phrase is read whatever follows it, as long as the next symbol
cannot prolong it; how deeply a reader nests is bounded by the number of symbols before it.
-/
namespace MiniJava

namespace Grammar

/-- The symbols that can follow an expression. -/
def closes : Symbol → Bool
  | .punct .rightParen | .punct .rightBracket | .punct .semicolon | .punct .comma => true
  | _ => false

/-- The symbols that can follow an operand. -/
def followsOperand : Symbol → Bool
  | .binary _ => true
  | s => closes s

theorem followsOperand_of_closes {s : Symbol} (h : closes s = true) : followsOperand s = true := by
  unfold followsOperand
  split
  · rfl
  · exact h

/-- What the members after a reference make of it. -/
inductive Chain : Ref → List Symbol → Ref → Prop
  | nil {r} : Chain r [] r
  | cons {r x ms r'} : Chain (.member r ⟨x, blank⟩ none) ms r' →
      Chain r (.punct .dot :: .identifier x :: ms) r'

theorem Chain.snoc {r r' : Ref} {ms : List Symbol} (h : Chain r ms r') (x : String) :
    Chain r (ms ++ [Symbol.punct .dot, .identifier x]) (.member r' ⟨x, blank⟩ none) := by
  induction h with
  | nil => exact .cons .nil
  | cons _ ih => exact .cons ih

theorem SpellsRef.chain {ss : List Symbol} {r : Ref} (h : SpellsRef ss r) :
    (∃ ms, ss = .keyword .thisWord :: ms ∧ Chain (.this blank none) ms r) ∨
      ∃ x ms, ss = .identifier x :: ms ∧ Chain (.name ⟨x, blank⟩ none) ms r := by
  induction h with
  | this => exact .inl ⟨[], rfl, .nil⟩
  | name => exact .inr ⟨_, [], rfl, .nil⟩
  | member _ ih =>
    rcases ih with ⟨ms, rfl, hchain⟩ | ⟨x, ms, rfl, hchain⟩
    · exact .inl ⟨_, rfl, hchain.snoc _⟩
    · exact .inr ⟨x, _, rfl, hchain.snoc _⟩

theorem SpellsRef.ne_nil {ss : List Symbol} {r : Ref} (h : SpellsRef ss r)
    (more : List Symbol) : ss ++ more ≠ [] := by
  rcases h.chain with ⟨ms, rfl, -⟩ | ⟨x, ms, rfl, -⟩ <;> exact List.cons_ne_nil _ _

/-- An operand starts with a symbol that no expression is followed by. -/
theorem SpellsOperand.head {ss : List Symbol} {e : Expr} (h : SpellsOperand ss e) :
    ∃ s tail, ss = s :: tail ∧ closes s = false := by
  have hclosed {ss : List Symbol} {r : Ref} (hr : SpellsRef ss r) (more : List Symbol) :
      ∃ s tail, ss ++ more = s :: tail ∧ closes s = false := by
    rcases hr.chain with ⟨ms, rfl, -⟩ | ⟨x, ms, rfl, -⟩ <;> exact ⟨_, _, rfl, rfl⟩
  cases h with
  | ref hr => exact List.append_nil ss ▸ hclosed hr []
  | index hr _ => exact hclosed hr _
  | call hr _ => exact hclosed hr _
  | not | neg | paren | num | trueWord | falseWord | nullWord | newObject | newIntArray |
      newClsArray =>
    exact ⟨_, _, rfl, rfl⟩

theorem SpellsExpr.head :
    ∀ {t ss e}, SpellsExpr t ss e → ∃ s tail, ss = s :: tail ∧ closes s = false
  | _, _, _, .operand h => h.head
  | _, _, _, .tighter h => h.head
  | _, _, _, .binary _ hl _ => by
    obtain ⟨s, tail, rfl, hs⟩ := hl.head
    exact ⟨s, _, rfl, hs⟩

theorem SpellsExprs.head {ss : List Symbol} {es : List Expr} (h : SpellsExprs ss es) :
    ∃ s tail, ss = s :: tail ∧ closes s = false := by
  cases h with
  | single h => exact h.head
  | cons h _ =>
    obtain ⟨s, tail, rfl, hs⟩ := h.head
    exact ⟨s, _, rfl, hs⟩

/-- The symbols that can start the type of a member. -/
def startsResult : Symbol → Bool
  | .identifier _ | .keyword .voidWord | .keyword .intWord | .keyword .booleanWord => true
  | _ => false

theorem SpellsResult.head {ss : List Symbol} {t : TypeName} (h : SpellsResult ss t) :
    ∃ first tail, ss = first :: tail ∧ startsResult first = true := by
  cases h with
  | void => exact ⟨_, _, rfl, rfl⟩
  | type ht => cases ht <;> exact ⟨_, _, rfl, rfl⟩

theorem SpellsType.ne_void {ss : List Symbol} {t : TypeName}
    (h : SpellsType ss t) : t.ty ≠ .void := by
  cases h <;> exact Ty.noConfusion

/-- The symbols that can start a statement. -/
def startsStmt : Symbol → Bool
  | .identifier _ | .punct .leftBrace | .keyword .intWord | .keyword .booleanWord |
      .keyword .thisWord
  | .keyword .returnWord | .keyword .ifWord | .keyword .whileWord => true
  | _ => false

theorem SpellsStmt.head {ss : List Symbol} {s : Stmt} (h : SpellsStmt ss s) :
    ∃ first tail, ss = first :: tail ∧ startsStmt first = true := by
  have href {ss : List Symbol} {r : Ref} (hr : SpellsRef ss r) (more : List Symbol) :
      ∃ first tail, ss ++ more = first :: tail ∧ startsStmt first = true := by
    rcases hr.chain with ⟨ms, rfl, -⟩ | ⟨x, ms, rfl, -⟩ <;> exact ⟨_, _, rfl, rfl⟩
  cases h with
  | declare ht _ => cases ht <;> exact ⟨_, _, rfl, rfl⟩
  | assign hr _ => exact href hr _
  | assignIndex hr _ _ => exact href hr _
  | call hr _ => exact href hr _
  | block | retVoid | ret | ifThen | ifElse | loop => exact ⟨_, _, rfl, rfl⟩

/-- No `else` follows a statement inside a block. -/
theorem SpellsStmts.head {ss : List Symbol} {body : List Stmt} (h : SpellsStmts ss body)
    (rest : List Symbol) :
    ∃ next tail, (ss ++ [Symbol.punct .rightBrace]) ++ rest = next :: tail ∧
      next ≠ .keyword .elseWord := by
  cases h with
  | nil => exact ⟨_, _, rfl, by decide⟩
  | cons hs _ =>
    obtain ⟨first, tail, rfl, hfirst⟩ := hs.head
    refine ⟨first, _, rfl, ?_⟩
    rintro rfl
    cases hfirst

theorem SpellsMember.head {ss : List Symbol} {m : Parser.Member} (h : SpellsMember ss m) :
    ∃ first tail, ss = first :: tail ∧ first ≠ .punct .rightBrace := by
  have hstart {vs as ts more : List Symbol} {isPrivate isStatic : Bool} {t : TypeName}
      (hv : SpellsVisibility vs isPrivate)
      (ha : SpellsAccess as isStatic) (ht : SpellsResult ts t) :
      ∃ first tail, vs ++ (as ++ (ts ++ more)) = first :: tail ∧ first ≠ .punct .rightBrace := by
    obtain ⟨first, tail, rfl, hfirst⟩ := ht.head
    cases hv with
    | publicWord | privateWord => exact ⟨_, _, rfl, by decide⟩
    | unmarked =>
      cases ha with
      | staticWord => exact ⟨_, _, rfl, by decide⟩
      | instanceMember =>
        refine ⟨first, _, rfl, ?_⟩
        rintro rfl
        cases hfirst
  cases h with
  | field hv ha ht => exact hstart hv ha (.type ht)
  | method hv ha ht _ _ => exact hstart hv ha ht

end Grammar

namespace Parser

open Grammar

theorem accepts_members {r₀ r : Ref} {ms : List Symbol} (h : Chain r₀ ms r) {r' : Ref} {n : Nat}
    {next : Symbol} {rest : List Symbol} (hr : r'.shape = r₀) (hn : ms.length < n)
    (hnext : next ≠ .punct .dot) :
    Accepts (members n r') ms (next :: rest) fun a => a.shape = r := by
  induction h generalizing r' n with
  | nil =>
    obtain ⟨n, rfl⟩ : ∃ m, n = m + 1 := Nat.exists_eq_succ_of_ne_zero (by omega)
    refine .peekAfter ?_
    split
    · exact absurd rfl hnext
    · exact .pure hr
  | @cons r x ms _ _ ih =>
    obtain ⟨n, rfl⟩ : ∃ m, n = m + 1 := Nat.exists_eq_succ_of_ne_zero (by omega)
    refine .peek (.advance (.identifier fun span => ih ?_ ?_))
    · rw [Ref.shape, hr]
      rfl
    · simp at hn
      omega

theorem accepts_reference {ss : List Symbol} {r : Ref} (h : SpellsRef ss r) {next : Symbol}
    {rest : List Symbol} (hnext : next ≠ .punct .dot) :
    Accepts reference ss (next :: rest) fun a => a.shape = r := by
  rcases h.chain with ⟨ms, rfl, hchain⟩ | ⟨x, ms, rfl, hchain⟩
  · exact .peek (.here fun span =>
      .advance (.bounded fun n hn => accepts_members hchain rfl (by omega) hnext))
  · exact .peek (.identifier fun span => .bounded fun n hn =>
      accepts_members hchain rfl (by omega) hnext)

theorem accepts_literal {l : Literal} {s : Symbol} {rest : List Symbol} :
    Accepts (literal l) [s] rest fun a => a.shape = .literal l blank :=
  .here fun _ => .advance (.pure rfl)

/-- The symbols are read as an operand. -/
def AcceptsOperand (ss : List Symbol) (e : Expr) : Prop :=
  ss ≠ [] ∧ ∀ n next rest, 3 * ss.length ≤ n + 1 → followsOperand next = true →
    Accepts (operandWithin n) ss (next :: rest) fun a => a.shape = e

/-- The symbols are read as an expression. -/
def AcceptsExpr (ss : List Symbol) (e : Expr) : Prop :=
  ∀ n next rest, 3 * ss.length ≤ n → closes next = true →
    Accepts (expressionWithin n) ss (next :: rest) fun a => a.shape = e

theorem accepts_operations {ss : List Symbol} {ops : List (BinaryOp × Expr)}
    (h : Operations AcceptsOperand ss ops) {n : Nat} {next : Symbol} {rest : List Symbol}
    (hn : 3 * ss.length + 1 ≤ n) (hnext : closes next = true) :
    Accepts (operationsWithin n) ss (next :: rest) fun xs =>
      xs.map (fun x => (x.1.1, x.2.shape)) = ops := by
  induction h generalizing n with
  | nil =>
    obtain ⟨n, rfl⟩ : ∃ m, n = m + 1 := Nat.exists_eq_succ_of_ne_zero (by omega)
    rw [operationsWithin]
    refine .peekAfter ?_
    split
    · cases hnext
    · exact .pure rfl
  | @cons op us e vs ops he hops ih =>
    obtain ⟨n, rfl⟩ : ∃ m, n = m + 1 := Nat.exists_eq_succ_of_ne_zero (by omega)
    simp only [List.length_cons, List.length_append] at hn
    rw [operationsWithin]
    refine .peek (.here fun span => .advance ?_)
    have hoperand : Accepts (operandWithin n) us (vs ++ next :: rest) fun a => a.shape = e := by
      cases hops with
      | nil => exact he.2 n next rest (by omega) (followsOperand_of_closes hnext)
      | cons => exact he.2 n _ _ (by omega) rfl
    refine hoperand.bind fun a ha => (ih (by omega)).last fun xs hxs => .pure ?_
    rw [List.map_cons, ha, hxs]

/-- Operands between operators are read as the expression that groups them. -/
theorem acceptsExpr_of_groups {t : Nat} {us vs : List Symbol} {a e : Expr}
    {ops : List (BinaryOp × Expr)} (ha : AcceptsOperand us a)
    (hops : Operations AcceptsOperand vs ops)
    (h : GroupsExpr t a ops e) : AcceptsExpr (us ++ vs) e := by
  intro n next rest hn hnext
  have hpos : 0 < us.length := List.length_pos_iff.mpr ha.1
  rw [List.length_append] at hn
  obtain ⟨n, rfl⟩ : ∃ m, n = m + 1 := Nat.exists_eq_succ_of_ne_zero (by omega)
  rw [expressionWithin]
  have hoperand : Accepts (operandWithin n) us (vs ++ next :: rest) fun x => x.shape = a := by
    cases hops with
    | nil => exact ha.2 n next rest (by omega) (followsOperand_of_closes hnext)
    | cons => exact ha.2 n _ _ (by omega) rfl
  refine hoperand.bind fun first hfirst =>
    (accepts_operations hops (by omega) hnext).last fun xs hxs => .pure ?_
  have hshape := groups_shape first xs
  rw [hfirst, hxs] at hshape
  exact (Precedence.tree_eq_iff.mpr (hshape.weaken (Nat.zero_le _))).symm.trans
    (Precedence.tree_eq_iff.mpr (h.weaken (Nat.zero_le _)))

/-- The symbols are read as arguments with their parentheses. -/
def AcceptsArgs (ss : List Symbol) (args : List Expr) : Prop :=
  ∀ n rest, 3 * ss.length ≤ n → Accepts (argumentsWithin n) ss rest fun as => Expr.shapes as = args

/-- The symbols are read as expressions between commas. -/
def AcceptsExprs (ss : List Symbol) (es : List Expr) : Prop :=
  ∀ n rest, 3 * ss.length + 1 ≤ n →
    Accepts (expressionsWithin n) ss (.punct .rightParen :: rest) fun as => Expr.shapes as = es

section Operands

variable {ss ss' : List Symbol} {r : Ref} {e : Expr} {es : List Expr} {n : Nat}

/-- Two steps are left once an operand has been found to be one. -/
theorem AcceptsOperand.intro (hne : ss ≠ [])
    (h : ∀ n next rest, 3 * ss.length ≤ n + 3 → followsOperand next = true →
      Accepts (operandWithin (n + 2)) ss (next :: rest) fun a => a.shape = e) :
    AcceptsOperand ss e := by
  refine ⟨hne, fun n next rest hn hnext => ?_⟩
  have hpos : 0 < ss.length := List.length_pos_iff.mpr hne
  obtain ⟨n, rfl⟩ : ∃ m, n = m + 2 := ⟨n - 2, by omega⟩
  exact h n next rest hn hnext

theorem accepts_operand_application (hr : SpellsRef ss r) {more rest : List Symbol}
    {P : Expr → Prop} (h : Accepts (applicationWithin n) (ss ++ more) rest P) :
    Accepts (operandWithin (n + 1)) (ss ++ more) rest P := by
  rw [operandWithin]
  rcases hr.chain with ⟨ms, rfl, -⟩ | ⟨x, ms, rfl, -⟩
  · exact .peek h
  · exact .peek h

theorem acceptsOperand_ref (hr : SpellsRef ss r) : AcceptsOperand ss (.ref r) := by
  rw [← List.append_nil ss]
  refine .intro (hr.ne_nil []) fun n next rest _ hnext => accepts_operand_application hr ?_
  have hdot : next ≠ .punct .dot := by
    rintro rfl
    cases hnext
  rw [applicationWithin, List.append_nil]
  refine .here fun span => (accepts_reference hr hdot).last fun a ha => .peekAfter ?_
  split
  · cases hnext
  · cases hnext
  · refine .pure ?_
    rw [Expr.shape, ha]

theorem acceptsOperand_index (hr : SpellsRef ss r) (hi : AcceptsExpr ss' e) :
    AcceptsOperand (ss ++ .punct .leftBracket :: (ss' ++ [Symbol.punct .rightBracket]))
      (.index r e blank) := by
  refine .intro (hr.ne_nil _) fun n next rest hn _ => accepts_operand_application hr ?_
  simp only [List.length_append, List.length_cons] at hn
  rw [applicationWithin]
  have hdot : Symbol.punct .leftBracket ≠ .punct .dot := by decide
  refine .here fun span => (accepts_reference hr hdot).bind fun a ha => .peek <| .advance ?_
  refine (hi n _ _ (by omega) rfl).bind fun i hi => .punct <| .passed fun _ => .pure ?_
  rw [Expr.shape, ha, hi]

theorem acceptsOperand_call (hr : SpellsRef ss r) (hargs : SpellsArgs ss' es)
    (h : AcceptsArgs ss' es) : AcceptsOperand (ss ++ ss') (.call r es blank) := by
  refine .intro (hr.ne_nil _) fun n next rest hn _ => accepts_operand_application hr ?_
  have hpos : 0 < ss.length := List.length_pos_iff.mpr (List.append_nil ss ▸ hr.ne_nil [])
  simp only [List.length_append] at hn
  rw [applicationWithin]
  have hdot : Symbol.punct .leftParen ≠ .punct .dot := by decide
  refine .here fun span => ?_
  obtain ⟨tail, rfl⟩ : ∃ tail, ss' = .punct .leftParen :: tail := by
    cases hargs with
    | nil => exact ⟨_, rfl⟩
    | list => exact ⟨_, rfl⟩
  refine (accepts_reference hr hdot).bind fun a ha => .peek ?_
  refine (h n _ (by omega)).last fun args hargs => .passed fun _ => .pure ?_
  rw [Expr.shape, ha, hargs]

theorem acceptsOperand_unary {s : Symbol} {op : UnaryOp} (hop : unaryOp? s = some op)
    (h : AcceptsOperand ss e) : AcceptsOperand (s :: ss) (.unary op blank e) := by
  refine .intro (List.cons_ne_nil _ _) fun n next rest hn hnext => ?_
  rw [List.length_cons] at hn
  rw [operandWithin]
  refine .peek ?_
  rw [hop]
  refine .here fun span => .advance <| (h.2 _ next rest (by omega) hnext).last fun a ha => .pure ?_
  rw [Expr.shape, ha]

theorem acceptsOperand_paren (h : AcceptsExpr ss e) :
    AcceptsOperand (.punct .leftParen :: (ss ++ [Symbol.punct .rightParen])) e := by
  refine .intro (List.cons_ne_nil _ _) fun n next rest hn hnext => ?_
  simp only [List.length_append, List.length_cons] at hn
  rw [operandWithin]
  exact .peek <| .advance <| (h _ _ _ (by omega) rfl).bind fun a ha => .punct (.pure ha)

theorem acceptsOperand_num {digits : String} (h : Decimal.value digits.toList ≤ 2147483647) :
    AcceptsOperand [.integer digits] (.literal (.int digits) blank) := by
  have hfits : ¬maxLiteral < Decimal.value digits.toList := Nat.not_lt_of_le h
  refine .intro (List.cons_ne_nil _ _) fun n next rest _ _ => ?_
  rw [operandWithin]
  refine .peek ?_
  change Accepts (if maxLiteral < _ then _ else _) _ _ _
  rw [if_neg hfits]
  exact accepts_literal

theorem acceptsOperand_word {w : Keyword} {l : Literal}
    (h : (w, l) ∈ [(.trueWord, .bool true), (.falseWord, .bool false), (.nullWord, .null)]) :
    AcceptsOperand [.keyword w] (.literal l blank) := by
  refine .intro (List.cons_ne_nil _ _) fun n next rest _ _ => ?_
  rw [operandWithin]
  simp only [List.mem_cons, Prod.mk.injEq, List.not_mem_nil, or_false] at h
  rcases h with ⟨rfl, rfl⟩ | ⟨rfl, rfl⟩ | ⟨rfl, rfl⟩ <;> exact .peek accepts_literal

theorem acceptsOperand_newObject (x : String) :
    AcceptsOperand [.keyword .newWord, .identifier x, .punct .leftParen,
      .punct .rightParen] (.newObject ⟨x, blank⟩ blank) := by
  refine .intro (List.cons_ne_nil _ _) fun n next rest _ _ => ?_
  rw [operandWithin]
  refine .peek ?_
  change Accepts (creationWithin (n + 1)) _ _ _
  rw [creationWithin]
  exact .here fun _ => .advance <| .peek <| .identifier fun _ =>
    .peek <| .advance <| .punct <| .passed fun _ => .pure rfl

theorem accepts_newArray (he : AcceptsExpr ss e) {start : Span} {elem : TypeName}
    {rest : List Symbol} (hn : 3 * ss.length < n) :
    Accepts (newArrayWithin n start elem)
      (.punct .leftBracket :: (ss ++ [Symbol.punct .rightBracket])) rest
      fun a => a.shape = .newArray elem.shape e blank := by
  obtain ⟨n, rfl⟩ : ∃ m, n = m + 1 := Nat.exists_eq_succ_of_ne_zero (by omega)
  rw [newArrayWithin]
  refine .punct <| (he n _ _ (by omega) rfl).bind fun a ha => .punct <| .passed fun _ => .pure ?_
  rw [Expr.shape, ha]

theorem acceptsOperand_newIntArray (he : AcceptsExpr ss e) :
    AcceptsOperand (.keyword .newWord :: .keyword .intWord :: .punct .leftBracket ::
      (ss ++ [Symbol.punct .rightBracket])) (.newArray (.int blank) e blank) := by
  refine .intro (List.cons_ne_nil _ _) fun n next rest hn _ => ?_
  simp only [List.length_append, List.length_cons] at hn
  rw [operandWithin]
  refine .peek ?_
  change Accepts (creationWithin (n + 1)) _ _ _
  rw [creationWithin]
  exact .here fun _ => .advance <| .peek <| .here fun _ => .advance (accepts_newArray he (by omega))

theorem acceptsOperand_newClsArray (x : String) (he : AcceptsExpr ss e) :
    AcceptsOperand (.keyword .newWord :: .identifier x :: .punct .leftBracket ::
      (ss ++ [Symbol.punct .rightBracket])) (.newArray (.cls ⟨x, blank⟩) e blank) := by
  refine .intro (List.cons_ne_nil _ _) fun n next rest hn _ => ?_
  simp only [List.length_append, List.length_cons] at hn
  rw [operandWithin]
  refine .peek ?_
  change Accepts (creationWithin (n + 1)) _ _ _
  rw [creationWithin]
  exact .here fun _ => .advance <| .peek <| .identifier fun _ =>
    .peek (accepts_newArray he (by omega))

theorem acceptsArgs_nil : AcceptsArgs [.punct .leftParen, .punct .rightParen] [] := by
  intro n rest hn
  simp only [List.length_cons] at hn
  obtain ⟨n, rfl⟩ : ∃ m, n = m + 1 := Nat.exists_eq_succ_of_ne_zero (by omega)
  rw [argumentsWithin]
  exact .punct <| .peek <| .advance <| .pure rfl

theorem acceptsArgs_list (hes : SpellsExprs ss es) (h : AcceptsExprs ss es) :
    AcceptsArgs (.punct .leftParen :: (ss ++ [Symbol.punct .rightParen])) es := by
  intro n rest hn
  simp only [List.length_append, List.length_cons] at hn
  obtain ⟨n, rfl⟩ : ∃ m, n = m + 1 := Nat.exists_eq_succ_of_ne_zero (by omega)
  rw [argumentsWithin]
  have hlength : 3 * ss.length + 1 ≤ n := by omega
  obtain ⟨s, tail, rfl, hs⟩ := hes.head
  refine .punct <| .peek ?_
  split
  · cases hs
  · have hend : Accepts (expressionsWithin n) (s :: tail) ([Symbol.punct .rightParen] ++ rest)
        fun as => Expr.shapes as = es :=
      h n rest hlength
    exact hend.bind fun as has => .punct (.pure has)

theorem acceptsExprs_single (he : AcceptsExpr ss e) : AcceptsExprs ss [e] := by
  intro n rest hn
  obtain ⟨n, rfl⟩ : ∃ m, n = m + 1 := Nat.exists_eq_succ_of_ne_zero (by omega)
  rw [expressionsWithin]
  refine (he n _ _ (by omega) rfl).last fun a ha => .peekAfter <| .pure ?_
  rw [Expr.shapes, ha, Expr.shapes]

theorem acceptsExprs_cons (he : AcceptsExpr ss e) (hes : AcceptsExprs ss' es) :
    AcceptsExprs (ss ++ .punct .comma :: ss') (e :: es) := by
  intro n rest hn
  simp only [List.length_append, List.length_cons] at hn
  obtain ⟨n, rfl⟩ : ∃ m, n = m + 1 := Nat.exists_eq_succ_of_ne_zero (by omega)
  rw [expressionsWithin]
  refine (he n _ _ (by omega) rfl).bind fun a ha =>
    .peek <| .advance <| (hes n rest (by omega)).last fun as has => .pure ?_
  rw [Expr.shapes, ha, has]

end Operands

/-- An expression as operands between operators, all of which are read. -/
def Flat (t : Nat) (ss : List Symbol) (e : Expr) : Prop :=
  ∃ us a vs ops, ss = us ++ vs ∧ AcceptsOperand us a ∧ Operations AcceptsOperand vs ops ∧
    GroupsExpr t a ops e

theorem Flat.accepts {t : Nat} {ss : List Symbol} {e : Expr}
    (h : Flat t ss e) : AcceptsExpr ss e := by
  obtain ⟨us, a, vs, ops, rfl, ha, hops, hgroups⟩ := h
  exact acceptsExpr_of_groups ha hops hgroups

mutual

theorem flat_of_spells : ∀ {t ss e}, SpellsExpr t ss e → Flat t ss e
  | _, ss, e, .operand h =>
    ⟨ss, e, [], [], (List.append_nil ss).symm, acceptsOperand_of_spells h, .nil, .term⟩
  | t, _, _, .tighter h => by
    obtain ⟨us, a, vs, ops, hss, ha, hops, hgroups⟩ := flat_of_spells h
    exact ⟨us, a, vs, ops, hss, ha, hops, hgroups.weaken (Nat.le_succ t)⟩
  | _, _, _, .binary hop hl hr => by
    obtain ⟨us, a, vs, ops, rfl, ha, hops, hgroups⟩ := flat_of_spells hl
    obtain ⟨us', a', vs', ops', rfl, ha', hops', hgroups'⟩ := flat_of_spells hr
    refine ⟨us, a, _, _, List.append_assoc us vs _, ha, hops.append (.cons ha' hops'), ?_⟩
    have hpriority := mem_tier.mp hop
    exact .node (Nat.le_of_eq hpriority.symm) (hpriority ▸ hgroups) (hpriority ▸ hgroups')

theorem acceptsOperand_of_spells : ∀ {ss e}, SpellsOperand ss e → AcceptsOperand ss e
  | _, _, .ref hr => acceptsOperand_ref hr
  | _, _, .index hr hi => acceptsOperand_index hr (flat_of_spells hi).accepts
  | _, _, .call hr hargs => acceptsOperand_call hr hargs (acceptsArgs_of_spells hargs)
  | _, _, .not h => acceptsOperand_unary rfl (acceptsOperand_of_spells h)
  | _, _, .neg h => acceptsOperand_unary rfl (acceptsOperand_of_spells h)
  | _, _, .paren h => acceptsOperand_paren (flat_of_spells h).accepts
  | _, _, .num h => acceptsOperand_num h
  | _, _, .trueWord => acceptsOperand_word (by simp)
  | _, _, .falseWord => acceptsOperand_word (by simp)
  | _, _, .nullWord => acceptsOperand_word (by simp)
  | _, _, .newObject => acceptsOperand_newObject _
  | _, _, .newIntArray h => acceptsOperand_newIntArray (flat_of_spells h).accepts
  | _, _, .newClsArray h => acceptsOperand_newClsArray _ (flat_of_spells h).accepts

theorem acceptsArgs_of_spells : ∀ {ss es}, SpellsArgs ss es → AcceptsArgs ss es
  | _, _, .nil => acceptsArgs_nil
  | _, _, .list h => acceptsArgs_list h (acceptsExprs_of_spells h)

theorem acceptsExprs_of_spells : ∀ {ss es}, SpellsExprs ss es → AcceptsExprs ss es
  | _, _, .single h => acceptsExprs_single (flat_of_spells h).accepts
  | _, _, .cons h hs => acceptsExprs_cons (flat_of_spells h).accepts (acceptsExprs_of_spells hs)

end

theorem accepts_expression {ss : List Symbol} {e : Expr} (h : SpellsExpr 1 ss e) {next : Symbol}
    {rest : List Symbol} (hnext : closes next = true) :
    Accepts expression ss (next :: rest) fun a => a.shape = e :=
  .bounded fun n hn => (flat_of_spells h).accepts n next rest (by omega) hnext

theorem accepts_arguments {ss : List Symbol} {es : List Expr} (h : SpellsArgs ss es)
    {rest : List Symbol} : Accepts arguments ss rest fun as => Expr.shapes as = es :=
  .bounded fun n hn => acceptsArgs_of_spells h n rest (by omega)

theorem accepts_condition {β : Type} {f : Expr → Parser β} {cs ss rest : List Symbol} {c : Expr}
    {Q : β → Prop} (hc : SpellsExpr 1 cs c) (hf : ∀ a, a.shape = c → Accepts (f a) ss rest Q) :
    Accepts (condition >>= f) (.punct .leftParen :: (cs ++ .punct .rightParen :: ss)) rest Q := by
  have hcondition :
      Accepts condition (.punct .leftParen :: (cs ++ [Symbol.punct .rightParen])) (ss ++ rest)
      fun a => a.shape = c :=
    .punct <| (accepts_expression hc rfl).bind fun a ha => .punct (.pure ha)
  have hlist : .punct .leftParen :: (cs ++ .punct .rightParen :: ss) =
      (.punct .leftParen :: (cs ++ [Symbol.punct .rightParen])) ++ ss := by
    rw [List.cons_append, List.append_assoc, List.singleton_append]
  rw [hlist]
  exact hcondition.bind hf

theorem accepts_typeName {ss : List Symbol} {t : TypeName} (h : SpellsType ss t) {next : Symbol}
    {rest : List Symbol} (hnext : next ≠ .punct .leftBracket) :
    Accepts typeName ss (next :: rest) fun a => a.shape = t := by
  have hplain (elem : TypeName) : Accepts (arraySuffix elem) [] (next :: rest) fun a =>
      a.shape = elem.shape := by
    refine .peekAfter ?_
    split
    · exact absurd rfl hnext
    · exact .pure rfl
  have harray (elem : TypeName) :
      Accepts (arraySuffix elem) [.punct .leftBracket, .punct .rightBracket] (next :: rest)
      fun a => a.shape = .array elem.shape blank :=
    .peek <| .advance <| .punct <| .passed fun _ => .pure rfl
  cases h with
  | int => exact .peek <| .here fun _ => .advance (hplain _)
  | intArray => exact .peek <| .here fun _ => .advance (harray _)
  | boolean => exact .peek <| .here fun _ => .advance <| .pure rfl
  | cls => exact .peek <| .identifier fun _ => hplain _
  | clsArray => exact .peek <| .identifier fun _ => harray _

section Statements

variable {ss es is rs rest : List Symbol} {e i : Expr} {r : Ref} {n : Nat}

theorem accepts_declarationRest (he : SpellsExpr 1 es e) (x : String) (t : TypeName)
    (start : Span) :
    Accepts (declarationRest t start)
      (.identifier x :: .punct .assign :: (es ++ [Symbol.punct .semicolon])) rest
      fun s => s.shape = .declare ⟨x, t.shape, blank⟩ e blank := by
  refine .identifier fun _ => .punct <| (accepts_expression he rfl).bind fun a ha =>
    .punct <| .passed fun _ => .pure ?_
  rw [Stmt.shape, ha]
  rfl

theorem accepts_indexAssignmentRest (hi : SpellsExpr 1 is i) (he : SpellsExpr 1 es e) (r : Ref)
    (start : Span) :
    Accepts (indexAssignmentRest r start)
      (is ++ .punct .rightBracket :: .punct .assign :: (es ++ [Symbol.punct .semicolon])) rest
      fun s => s.shape = .assignIndex r.shape i e blank := by
  refine (accepts_expression hi rfl).bind fun a ha =>
    .punct <| .punct <| (accepts_expression he rfl).bind fun b hb => ?_
  refine .punct <| .passed fun _ => .pure ?_
  rw [Stmt.shape, ha, hb]

theorem accepts_refStatement {f : Ref → Stmt} {a : Symbol} (hr : SpellsRef rs r)
    (ha : a = .punct .assign ∨ a = .punct .leftParen)
    (h : ∀ r' start, Accepts (actionRest r' start) (a :: ss) rest fun s => s.shape = f r'.shape) :
    Accepts (statementWithin (n + 1)) (rs ++ a :: ss) rest fun s => s.shape = f r := by
  have hdot : a ≠ .punct .dot := by rcases ha with rfl | rfl <;> decide
  have haction (start : Span) (r' : Ref) (hr' : r'.shape = r) :
      Accepts (actionRest r' start) (a :: ss) rest fun s => s.shape = f r := hr' ▸ h r' start
  rw [statementWithin]
  refine .here fun start => ?_
  rcases hr.chain with ⟨ms, rfl, hchain⟩ | ⟨x, ms, rfl, hchain⟩
  · exact .peek <| (accepts_reference hr hdot).bind (haction start)
  · refine .peek <| .here fun start => .identifier fun span => ?_
    have hmembers :
        Accepts (bounded (fun n => members n (.name ⟨x, span⟩ none)) >>= fun r =>
        actionRest r start)
        (ms ++ a :: ss) rest fun s => s.shape = f r :=
      Accepts.bind (.bounded fun n hn => accepts_members hchain rfl (by omega) hdot) (haction start)
    cases hchain with
    | nil => rcases ha with rfl | rfl <;> exact .peek hmembers
    | cons => exact .peek hmembers

theorem accepts_indexStatement (hr : SpellsRef rs r) (hi : SpellsExpr 1 is i)
    (he : SpellsExpr 1 es e) :
    Accepts (statementWithin (n + 1))
      (rs ++ .punct .leftBracket ::
        (is ++ .punct .rightBracket :: .punct .assign :: (es ++ [Symbol.punct .semicolon]))) rest
      fun s => s.shape = .assignIndex r i e blank := by
  have hdot : Symbol.punct .leftBracket ≠ .punct .dot := by decide
  have haction (start : Span) (r' : Ref) (hr' : r'.shape = r) : Accepts (actionRest r' start)
      (.punct .leftBracket ::
        (is ++ .punct .rightBracket :: .punct .assign :: (es ++ [Symbol.punct .semicolon]))) rest
      fun s => s.shape = .assignIndex r i e blank :=
    .peek <| .advance <| hr' ▸ accepts_indexAssignmentRest hi he r' start
  rw [statementWithin]
  refine .here fun start => ?_
  rcases hr.chain with ⟨ms, rfl, hchain⟩ | ⟨x, ms, rfl, hchain⟩
  · exact .peek <| (accepts_reference hr hdot).bind (haction start)
  · refine .peek <| .here fun start => .identifier fun span => ?_
    have hmembers :
        Accepts (bounded (fun n => members n (.name ⟨x, span⟩ none)) >>= fun r =>
        actionRest r start)
        (ms ++ .punct .leftBracket :: (is ++ .punct .rightBracket :: .punct .assign ::
          (es ++ [Symbol.punct .semicolon]))) rest
        fun s => s.shape = .assignIndex r i e blank :=
      Accepts.bind (.bounded fun n hn => accepts_members hchain rfl (by omega) hdot) (haction start)
    cases hchain with
    | nil =>
      -- the bracket is passed before it is known that no type is written
      obtain ⟨s, tail, rfl, hs⟩ := hi.head
      refine .peek <| .advance <| .peek ?_
      split
      · cases hs
      · exact accepts_indexAssignmentRest hi he (.name ⟨x, span⟩ none) start
    | cons => exact .peek hmembers

theorem accepts_declaration {ts : List Symbol} {t : TypeName} (ht : SpellsType ts t)
    (he : SpellsExpr 1 es e) (x : String) :
    Accepts (statementWithin (n + 1)) (ts ++ .identifier x :: .punct .assign ::
      (es ++ [Symbol.punct .semicolon])) rest
      fun s => s.shape = .declare ⟨x, t, blank⟩ e blank := by
  have hbracket : Symbol.identifier x ≠ .punct .leftBracket := Symbol.noConfusion
  have htyped (start : Span) (t' : TypeName) (ht' : t'.shape = t) :
      Accepts (declarationRest t' start)
      (.identifier x :: .punct .assign :: (es ++ [Symbol.punct .semicolon])) rest
      fun s => s.shape = .declare ⟨x, t, blank⟩ e blank :=
        ht' ▸ accepts_declarationRest he x t' start
  have htype (start : Span) := (accepts_typeName ht hbracket).bind (htyped start)
  rw [statementWithin]
  refine .here fun start => ?_
  cases ht with
  | int | intArray | boolean => exact .peek (htype start)
  | cls => exact .peek <| .here fun start => .identifier fun span => .peek (htyped start _ rfl)
  | clsArray =>
    exact .peek <| .here fun start => .identifier fun span =>
      .peek <| .advance <| .peek <| .advance <|
      .passed fun _ => htyped start _ rfl

theorem accepts_assignment (hr : SpellsRef rs r) (he : SpellsExpr 1 es e) :
    Accepts (statementWithin (n + 1)) (rs ++ .punct .assign :: (es ++ [Symbol.punct .semicolon]))
      rest
      fun s => s.shape = .assign r e blank := by
  refine accepts_refStatement (f := fun r => .assign r e blank) hr (.inl rfl) fun r' start =>
    .peek <| .advance ?_
  refine (accepts_expression he rfl).bind fun a ha => .punct <| .passed fun _ => .pure ?_
  rw [Stmt.shape, ha]

theorem accepts_callStatement {as : List Symbol} {args : List Expr} (hr : SpellsRef rs r)
    (hargs : SpellsArgs as args) :
    Accepts (statementWithin (n + 1)) (rs ++ (as ++ [Symbol.punct .semicolon])) rest
      fun s => s.shape = .call r args blank := by
  have hcall (r' : Ref) (start : Span) : Accepts (do
      let args ← arguments
      expectPunct .semicolon
      return Stmt.call r' args (start.through (← passed))) (as ++ [Symbol.punct .semicolon]) rest
      fun s => s.shape = .call r'.shape args blank := by
    refine (accepts_arguments hargs).bind fun a ha => .punct <| .passed fun _ => .pure ?_
    rw [Stmt.shape, ha]
  obtain ⟨tail, rfl⟩ : ∃ tail, as = .punct .leftParen :: tail := by
    cases hargs with
    | nil => exact ⟨_, rfl⟩
    | list => exact ⟨_, rfl⟩
  exact accepts_refStatement (f := fun r => .call r args blank) hr (.inr rfl) fun r' start =>
    .peek (hcall r' start)

theorem accepts_return (he : SpellsExpr 1 es e) :
    Accepts (statementWithin (n + 1)) (.keyword .returnWord :: (es ++ [Symbol.punct .semicolon]))
      rest
      fun s => s.shape = .ret (some e) blank := by
  rw [statementWithin]
  refine .here fun _ => .peek <| .here fun _ => .advance ?_
  have hvalue : Accepts expression es ([Symbol.punct .semicolon] ++ rest) fun a => a.shape = e :=
    accepts_expression he rfl
  obtain ⟨s, tail, rfl, hs⟩ := he.head
  refine .peek ?_
  split
  · cases hs
  · refine hvalue.bind fun a ha => .punct <| .passed fun _ => .pure ?_
    rw [Stmt.shape, ha]

/-- The symbols are read as a statement if no `else` follows that it could take. -/
def AcceptsStmt (ss : List Symbol) (s : Stmt) : Prop :=
  s.elseNearest = true → ∀ n next rest, 2 * ss.length ≤ n →
    (s.isOpen = true → next ≠ .keyword .elseWord) →
    Accepts (statementWithin n) ss (next :: rest) fun a => a.shape = s

/-- The symbols are read as the statements of a block. -/
def AcceptsStmts (ss : List Symbol) (body : List Stmt) : Prop :=
  Stmt.elsesNearest body = true → ∀ n rest, 2 * ss.length + 2 ≤ n →
    Accepts (statementsWithin n) (ss ++ [.punct .rightBrace]) rest fun as => Stmt.shapes as = body

theorem AcceptsStmt.plain {s : Stmt} (hne : ss ≠ [])
    (h : ∀ n rest, Accepts (statementWithin (n + 1)) ss rest fun a => a.shape = s) :
    AcceptsStmt ss s := by
  intro _ n next rest hn _
  have hpos : 0 < ss.length := List.length_pos_iff.mpr hne
  obtain ⟨n, rfl⟩ : ∃ m, n = m + 1 := Nat.exists_eq_succ_of_ne_zero (by omega)
  exact h n _

theorem acceptsStmt_block {body : List Stmt} (h : AcceptsStmts ss body) :
    AcceptsStmt (.punct .leftBrace :: (ss ++ [Symbol.punct .rightBrace])) (.block body blank) := by
  intro hnearest n next rest hn _
  simp only [List.length_append, List.length_cons, List.length_nil] at hn
  obtain ⟨n, rfl⟩ : ∃ m, n = m + 1 := Nat.exists_eq_succ_of_ne_zero (by omega)
  rw [statementWithin]
  refine .here fun _ => .peek <| .advance <| (h hnearest n _ (by omega)).last fun a ha =>
    .passed fun _ => .pure ?_
  rw [Stmt.shape, ha]

theorem accepts_returnVoid :
    Accepts (statementWithin (n + 1)) [.keyword .returnWord, .punct .semicolon] rest fun s =>
      s.shape = .ret none blank := by
  rw [statementWithin]
  exact .here fun _ => .peek <| .here fun _ => .advance <| .peek <| .advance <| .passed fun _ =>
    .pure rfl

section Branches

variable {cs ts : List Symbol} {c : Expr} {t s : Stmt}

theorem acceptsStmt_ifThen (hc : SpellsExpr 1 cs c) (ht : AcceptsStmt ts t) :
    AcceptsStmt (.keyword .ifWord :: .punct .leftParen :: (cs ++ .punct .rightParen :: ts))
      (.ifThen c t blank) := by
  intro hnearest n next rest hn hnext
  simp only [List.length_append, List.length_cons] at hn
  obtain ⟨n, rfl⟩ : ∃ m, n = m + 1 := Nat.exists_eq_succ_of_ne_zero (by omega)
  rw [statementWithin]
  refine .here fun _ => .peek <| .advance <| accepts_condition hc fun a ha => ?_
  refine (ht hnearest n next rest (by omega) fun _ => hnext rfl).last fun b hb => .peekAfter ?_
  split
  · exact absurd rfl (hnext rfl)
  · refine .passed fun _ => .pure ?_
    rw [Stmt.shape, ha, hb]

theorem acceptsStmt_ifElse (hc : SpellsExpr 1 cs c) (ht : AcceptsStmt ts t)
    (hs : AcceptsStmt ss s) :
    AcceptsStmt (.keyword .ifWord :: .punct .leftParen ::
      (cs ++ .punct .rightParen :: (ts ++ .keyword .elseWord :: ss)))
      (.ifElse c t s blank) := by
  intro hnearest n next rest hn hnext
  simp only [List.length_append, List.length_cons] at hn
  obtain ⟨n, rfl⟩ : ∃ m, n = m + 1 := Nat.exists_eq_succ_of_ne_zero (by omega)
  simp only [Stmt.elseNearest, Bool.and_eq_true, Bool.not_eq_true'] at hnearest
  obtain ⟨⟨hclosed, hnearest⟩, hnearest'⟩ := hnearest
  rw [statementWithin]
  refine .here fun _ => .peek <| .advance <| accepts_condition hc fun a ha => ?_
  have hthen : Accepts (statementWithin n) ts (.keyword .elseWord :: ss ++ next :: rest) fun b =>
      b.shape = t := by
    refine ht hnearest n _ _ (by omega) fun hopen => ?_
    rw [hclosed] at hopen
    cases hopen
  refine hthen.bind fun b hb =>
    .peek <| .advance <| (hs hnearest' n next rest (by omega) hnext).last fun d hd => ?_
  refine .passed fun _ => .pure ?_
  rw [Stmt.shape, ha, hb, hd]

theorem acceptsStmt_loop (hc : SpellsExpr 1 cs c) (ht : AcceptsStmt ts t) :
    AcceptsStmt (.keyword .whileWord :: .punct .leftParen :: (cs ++ .punct .rightParen :: ts))
      (.loop c t blank) := by
  intro hnearest n next rest hn hnext
  simp only [List.length_append, List.length_cons] at hn
  obtain ⟨n, rfl⟩ : ∃ m, n = m + 1 := Nat.exists_eq_succ_of_ne_zero (by omega)
  rw [statementWithin]
  refine .here fun _ => .peek <| .advance <| accepts_condition hc fun a ha => ?_
  refine (ht hnearest n next rest (by omega) hnext).last fun b hb => .passed fun _ => .pure ?_
  rw [Stmt.shape, ha, hb]

theorem acceptsStmts_nil : AcceptsStmts [] [] := by
  intro _ n rest hn
  obtain ⟨n, rfl⟩ : ∃ m, n = m + 1 := Nat.exists_eq_succ_of_ne_zero (by omega)
  rw [statementsWithin]
  exact .peek <| .advance <| .pure rfl

theorem acceptsStmts_cons {body : List Stmt} (hs : SpellsStmt ss s) (hbody : SpellsStmts ts body)
    (h : AcceptsStmt ss s) (h' : AcceptsStmts ts body) : AcceptsStmts (ss ++ ts) (s :: body) := by
  intro hnearest n rest hn
  rw [List.length_append] at hn
  obtain ⟨n, rfl⟩ : ∃ m, n = m + 1 := Nat.exists_eq_succ_of_ne_zero (by omega)
  rw [Stmt.elsesNearest, Bool.and_eq_true] at hnearest
  have hfirst : Accepts (statementWithin n) ss ((ts ++ [Symbol.punct .rightBrace]) ++ rest) fun a =>
      a.shape = s := by
    obtain ⟨next, tail, hlist, hnext⟩ := hbody.head rest
    rw [hlist]
    exact h hnearest.1 n next tail (by omega) fun _ => hnext
  have hpos : 0 < ss.length := by
    obtain ⟨first, tail, rfl, -⟩ := hs.head
    exact Nat.succ_pos _
  have hrest := h' hnearest.2 n rest (by omega)
  rw [statementsWithin, List.append_assoc]
  obtain ⟨first, tail, rfl, hstart⟩ := hs.head
  refine .peek ?_
  split
  · cases hstart
  · refine hfirst.bind fun a ha => hrest.last fun as has => .pure ?_
    rw [Stmt.shapes, ha, has]

end Branches

end Statements

mutual

theorem acceptsStmt_of_spells : ∀ {ss s}, SpellsStmt ss s → AcceptsStmt ss s
  | _, _, .block h => acceptsStmt_block (acceptsStmts_of_spells h)
  | _, _, .declare ht he => .plain (by simp) fun _ _ => accepts_declaration ht he _
  | _, _, .assign hr he => .plain (by simp) fun _ _ => accepts_assignment hr he
  | _, _, .assignIndex hr hi he => .plain (by simp) fun _ _ => accepts_indexStatement hr hi he
  | _, _, .call hr hargs => .plain (by simp) fun _ _ => accepts_callStatement hr hargs
  | _, _, .retVoid => .plain (by simp) fun _ _ => accepts_returnVoid
  | _, _, .ret he => .plain (by simp) fun _ _ => accepts_return he
  | _, _, .ifThen hc ht => acceptsStmt_ifThen hc (acceptsStmt_of_spells ht)
  | _, _, .ifElse hc ht he =>
    acceptsStmt_ifElse hc (acceptsStmt_of_spells ht) (acceptsStmt_of_spells he)
  | _, _, .loop hc hb => acceptsStmt_loop hc (acceptsStmt_of_spells hb)

theorem acceptsStmts_of_spells : ∀ {ss body}, SpellsStmts ss body → AcceptsStmts ss body
  | _, _, .nil => acceptsStmts_nil
  | _, _, .cons hs hbody =>
    acceptsStmts_cons hs hbody (acceptsStmt_of_spells hs) (acceptsStmts_of_spells hbody)

end

section Members

variable {ss vs as ts ps rest : List Symbol} {isPrivate isStatic : Bool} {t : TypeName}
  {first : Symbol}

theorem accepts_parameters {params : List Variable} (h : SpellsParams ss params) {n : Nat}
    (hn : ss.length ≤ n) :
    Accepts (parametersWithin n) ss (.punct .rightParen :: rest) fun xs =>
      xs.map Variable.shape = params := by
  induction h generalizing n with
  | @single ts t x ht =>
    rw [List.length_append, List.length_singleton] at hn
    obtain ⟨n, rfl⟩ : ∃ m, n = m + 1 := Nat.exists_eq_succ_of_ne_zero (by omega)
    have hbracket : Symbol.identifier x ≠ .punct .leftBracket := Symbol.noConfusion
    rw [parametersWithin]
    refine .here fun _ => (accepts_typeName ht hbracket).bind fun a ha => .identifier fun _ =>
      .peekAfter <| .pure ?_
    rw [List.map_singleton, Variable.shape, ha]
  | @cons ts t x ss vs ht _ ih =>
    simp only [List.length_append, List.length_cons] at hn
    obtain ⟨n, rfl⟩ : ∃ m, n = m + 1 := Nat.exists_eq_succ_of_ne_zero (by omega)
    have hbracket : Symbol.identifier x ≠ .punct .leftBracket := Symbol.noConfusion
    rw [parametersWithin]
    refine .here fun _ => (accepts_typeName ht hbracket).bind fun a ha => .identifier fun _ =>
      .peek <| .advance ?_
    refine (ih (by omega)).last fun xs hxs => .pure ?_
    rw [List.map_cons, Variable.shape, ha, hxs]

theorem accepts_optionalParameters {params : List Variable}
    (h : ss = [] ∧ params = [] ∨ SpellsParams ss params) :
    Accepts optionalParameters ss (.punct .rightParen :: rest) fun xs =>
      xs.map Variable.shape = params := by
  rcases h with ⟨rfl, rfl⟩ | h
  · exact .peekAfter <| .pure rfl
  · have hparams : Accepts parameters ss (.punct .rightParen :: rest) fun xs =>
        xs.map Variable.shape = params :=
      .bounded fun n hn => accepts_parameters h (by omega)
    cases h with
    | single ht => cases ht <;> exact .peek hparams
    | cons ht _ => cases ht <;> exact .peek hparams

theorem accepts_visibility (h : SpellsVisibility vs isPrivate)
    (hfirst : first = .keyword .staticWord ∨ startsResult first = true) :
    Accepts visibility vs (first :: rest) fun b => b = isPrivate := by
  cases h with
  | publicWord => exact .peek <| .advance <| .pure rfl
  | privateWord => exact .peek <| .advance <| .pure rfl
  | unmarked =>
    refine .peekAfter ?_
    split
    · rcases hfirst with h | h <;> cases h
    · rcases hfirst with h | h <;> cases h
    · exact .pure rfl

theorem accepts_access (h : SpellsAccess as isStatic) (hfirst : startsResult first = true) :
    Accepts access as (first :: rest) fun b => b = isStatic := by
  cases h with
  | staticWord => exact .peek <| .advance <| .pure rfl
  | instanceMember =>
    refine .peekAfter ?_
    split
    · cases hfirst
    · exact .pure rfl

theorem accepts_resultType (h : SpellsResult ts t) (x : String) :
    Accepts resultType ts (.identifier x :: rest) fun a => a.shape = t := by
  cases h with
  | void => exact .peek <| .here fun _ => .advance <| .pure rfl
  | type ht =>
    have htype : Accepts typeName ts (.identifier x :: rest) fun a => a.shape = t :=
      accepts_typeName ht Symbol.noConfusion
    cases ht <;> exact .peek htype

theorem accepts_methodRest {params : List Variable} {body : List Stmt}
    (hparams : SpellsParamList ps params) (hbody : SpellsStmts ss body)
    (hnearest : Stmt.elsesNearest body = true) (start : Span) (isPrivate isStatic : Bool)
    (t : TypeName) (x : String) :
    Accepts (methodRest start isPrivate isStatic t x)
      (ps ++ .punct .leftBrace :: (ss ++ [Symbol.punct .rightBrace])) rest
      fun m => m.shape = ⟨⟨x, t.shape, blank, isPrivate, isStatic, params⟩, body⟩ := by
  obtain ⟨qs, rfl, hqs⟩ : ∃ qs, ps = .punct .leftParen :: (qs ++ [Symbol.punct .rightParen]) ∧
      (qs = [] ∧ params = [] ∨ SpellsParams qs params) := by
    cases hparams with
    | nil => exact ⟨[], rfl, .inl ⟨rfl, rfl⟩⟩
    | list h => exact ⟨_, rfl, .inr h⟩
  rw [List.cons_append, List.append_assoc, List.singleton_append]
  refine .punct <| (accepts_optionalParameters hqs).bind fun xs hxs =>
    .punct <| .punct <| Accepts.last
    (.bounded fun n hn => acceptsStmts_of_spells hbody hnearest n rest ?_) fun b hb =>
      .passed fun _ => .pure ?_
  · rw [List.length_append, List.length_singleton] at hn
    omega
  · rw [Method.shape, hxs, hb]

theorem accepts_memberStart {β : Type} {f : Bool → Bool → TypeName → Ident → Parser β}
    {x : String} {Q : β → Prop} (hv : SpellsVisibility vs isPrivate)
    (ha : SpellsAccess as isStatic) (ht : SpellsResult ts t)
    (h : ∀ a span, a.shape = t → Accepts (f isPrivate isStatic a ⟨x, span⟩) ss rest Q) :
    Accepts (do f (← visibility) (← access) (← resultType) (← identifier))
      (vs ++ (as ++ (ts ++ .identifier x :: ss))) rest Q := by
  obtain ⟨first, tail, rfl, hfirst⟩ := ht.head
  have hvisibility : Accepts visibility vs ((as ++ (first :: tail ++ .identifier x :: ss)) ++ rest)
      fun b => b = isPrivate := by
    cases ha with
    | staticWord => exact accepts_visibility hv (.inl rfl)
    | instanceMember => exact accepts_visibility hv (.inr hfirst)
  refine hvisibility.bind ?_
  rintro b rfl
  refine (accepts_access ha hfirst).bind ?_
  rintro b rfl
  exact (accepts_resultType ht x).bind fun a ha => .identifier fun span => h a span ha

theorem accepts_member {m : Member} (h : SpellsMember ss m)
    (hnearest : ∀ x, m.method? = some x → Stmt.elsesNearest x.body = true) :
    Accepts member ss rest fun a => a.shape = m := by
  cases h with
  | field hv ha ht =>
    refine .here fun start => accepts_memberStart hv ha (.type ht) fun a span hshape => .peek ?_
    have hvoid : a.ty ≠ .void := by
      rw [← a.ty_shape, hshape]
      exact ht.ne_void
    rw [if_pos ⟨rfl, hvoid⟩]
    refine .advance <| .passed fun _ => .pure ?_
    rw [Member.shape, Field.shape, hshape]
  | @method vs isPrivate as isStatic ts t x ps params ss body hv ha ht hparams hbody =>
    refine .here fun start => accepts_memberStart hv ha ht fun a span hshape => ?_
    have hrest : Accepts (methodRest start isPrivate isStatic a x) _ rest _ :=
      accepts_methodRest hparams hbody (hnearest _ rfl) start isPrivate isStatic a x
    obtain ⟨tail, rfl⟩ : ∃ tail, ps = .punct .leftParen :: tail := by
      cases hparams with
      | nil => exact ⟨_, rfl⟩
      | list => exact ⟨_, rfl⟩
    refine .peek ?_
    rw [if_neg fun h => by cases h.1]
    refine hrest.last fun m hm => .pure ?_
    rw [Member.shape, hm, hshape]

theorem accepts_membersUntilBrace {ms : List Member} (h : SpellsMembers ss ms)
    (hnearest : ∀ x ∈ ms.filterMap Member.method?, Stmt.elsesNearest x.body = true) {n : Nat}
    (hn : ss.length < n) :
    Accepts (membersUntilBrace n) (ss ++ [Symbol.punct .rightBrace]) rest fun as =>
      as.map Member.shape = ms := by
  induction h generalizing n with
  | nil =>
    obtain ⟨n, rfl⟩ : ∃ m, n = m + 1 := Nat.exists_eq_succ_of_ne_zero (by omega)
    exact .peek <| .advance <| .pure rfl
  | @cons ss m ss' ms hm hms ih =>
    rw [List.length_append] at hn
    obtain ⟨n, rfl⟩ : ∃ m, n = m + 1 := Nat.exists_eq_succ_of_ne_zero (by omega)
    have hmember : Accepts member ss ((ss' ++ [Symbol.punct .rightBrace]) ++ rest) fun a =>
        a.shape = m :=
      accepts_member hm fun x hx => hnearest x (List.mem_filterMap.mpr ⟨m, List.mem_cons_self, hx⟩)
    have hrest (x : Method) (hx : x ∈ ms.filterMap Member.method?) :
        Stmt.elsesNearest x.body = true := by
      obtain ⟨m', hm', hx'⟩ := List.mem_filterMap.mp hx
      exact hnearest x (List.mem_filterMap.mpr ⟨m', List.mem_cons_of_mem _ hm', hx'⟩)
    obtain ⟨first, tail, rfl, hfirst⟩ := hm.head
    rw [List.length_cons] at hn
    rw [membersUntilBrace, List.append_assoc]
    refine .peek ?_
    split
    · exact absurd rfl hfirst
    · refine hmember.bind fun a ha => (ih hrest (by omega)).last fun as has => .pure ?_
      rw [List.map_cons, ha, has]

theorem accepts_classDecl {c : ClassDecl} (h : SpellsClass ss c)
    (hnearest : ∀ m ∈ c.methods, Stmt.elsesNearest m.body = true) :
    Accepts classDecl ss rest fun a => a.shape = c := by
  cases h with
  | @mk x ss ms hms =>
    refine .here fun _ => .advance <| .identifier fun _ =>
      .punct <| Accepts.last (.bounded fun n hn =>
      accepts_membersUntilBrace hms hnearest ?_) fun as has => .passed fun _ => .pure ?_
    · rw [List.length_append, List.length_singleton] at hn
      omega
    · rw [ClassDecl.shape, ← filterMap_field?_shape, ← filterMap_method?_shape, has]
      rfl

theorem accepts_classes {cs : List ClassDecl} (h : SpellsClasses ss cs)
    (hnearest : ∀ c ∈ cs, ∀ m ∈ c.methods, Stmt.elsesNearest m.body = true) {n : Nat}
    (hn : ss.length < n) :
    Accepts (classes n) ss [.endOfText] fun as => as.map ClassDecl.shape = cs := by
  induction h generalizing n with
  | nil =>
    obtain ⟨n, rfl⟩ : ∃ m, n = m + 1 := Nat.exists_eq_succ_of_ne_zero (by omega)
    exact .peekAfter <| .pure rfl
  | @cons ss c ss' cs hc _ ih =>
    rw [List.length_append] at hn
    obtain ⟨n, rfl⟩ : ∃ m, n = m + 1 := Nat.exists_eq_succ_of_ne_zero (by omega)
    obtain ⟨hfirst, hrest⟩ := List.forall_mem_cons.mp hnearest
    have hclass : Accepts classDecl ss (ss' ++ [Symbol.endOfText]) fun a => a.shape = c :=
      accepts_classDecl hc hfirst
    cases hc with
    | mk =>
      rw [List.length_cons] at hn
      refine .peek <| hclass.bind fun a ha => (ih hrest (by omega)).last fun as has => .pure ?_
      rw [List.map_cons, ha, has]

end Members

end Parser

/-- Tokens that spell a program, with every `else` at the nearest `if`, are read as that program. -/
theorem Program.ofTokens_of_spells {ts : List Token} {body : List Symbol} {t : Program}
    (hts : ts.map (·.symbol) = body ++ [Symbol.endOfText]) (h : Grammar.SpellsProgram body t)
    (hnearest : t.elsesNearest = true) :
    ∃ p, Program.ofTokens ts = .ok p ∧ p.shape = t := by
  have hstart : (Cursor.start ts).symbols = body ++ [Symbol.endOfText] := by
    rw [Cursor.symbols_start, hts]
    rintro rfl
    simp at hts
  cases h with
  | @mk cs hcs =>
    have hnearest : ∀ c ∈ cs, ∀ m ∈ c.methods, Stmt.elsesNearest m.body = true := by
      simpa [Program.elsesNearest] using hnearest
    have hclasses : Parser.Accepts (Parser.bounded Parser.classes) body [.endOfText] fun as =>
        as.map ClassDecl.shape = cs :=
      .bounded fun n hn => Parser.accepts_classes hcs hnearest (by omega)
    obtain ⟨as, c', has, hc', hshape⟩ := hclasses (List.cons_ne_nil _ _) (Cursor.start ts) hstart
    have hend : Parser.expect .endOfText c' = .ok () c'.advance := by
      have hcurrent : c'.current.symbol = .endOfText := (List.cons.inj hc').1
      change (if c'.current.symbol = .endOfText then Parser.advance else throw _) c' = _
      rw [if_pos hcurrent]
      rfl
    have hprogram : Parser.program (Cursor.start ts) =
        .ok ⟨as, (Cursor.start ts).current.span.through c'.advance.previous⟩ c'.advance := by
      change (Parser.bounded Parser.classes >>= _) (Cursor.start ts) = _
      rw [EStateM.bind_of_ok has, EStateM.bind_of_ok hend]
      rfl
    refine ⟨⟨as, _⟩, by rw [Program.ofTokens, hprogram], ?_⟩
    rw [Program.shape, hshape]

end MiniJava
