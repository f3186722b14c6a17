import MiniJava.Proofs.Syntax.Complete
/-!
What has been read when reading fails. The symbols before the one at hand are the start of a phrase:
whatever a reader has passed when it gives up can still be completed. No reader gives up because it
nests too deeply.
-/
namespace MiniJava

namespace Grammar

open Precedence

theorem spells_null : SpellsExpr 1 [.keyword .nullWord] (.literal .null blank) :=
  SpellsOperand.nullWord.expr (by decide)

/-- Operands with any operators between them are an expression. -/
theorem exists_expr {ss ss' : List Symbol} {a : Expr} {ops : List (BinaryOp × Expr)}
    (ha : SpellsOperand ss a)
    (hops : Operations SpellsOperand ss' ops) : ∃ e, SpellsExpr 1 (ss ++ ss') e := by
  have hgroups : GroupsExpr 0 a ops _ := tree_eq_iff.mp rfl
  generalize tree _ _ a ops = e at hgroups
  have hone : GroupsExpr 1 a ops e := by
    cases hgroups with
    | term => exact .term
    | node _ hl hr => exact .node (one_le_priority _) hl hr
  exact ⟨e, hone.spells (by decide) ha hops⟩

theorem length_pos_of_head {ss : List Symbol} {P : Symbol → Prop}
    (h : ∃ s tail, ss = s :: tail ∧ P s) : 0 < ss.length := by
  obtain ⟨s, tail, rfl, -⟩ := h
  exact Nat.succ_pos _

end Grammar

instance : Nonempty TypeName := ⟨.int blank⟩

instance : Nonempty Ref := ⟨.this blank none⟩

instance : Nonempty Expr := ⟨.literal .null blank⟩

instance : Nonempty Stmt := ⟨.block [] blank⟩

instance : Nonempty Method := ⟨⟨⟨"f", .void blank, blank, false, false, []⟩, []⟩⟩

instance : Nonempty ClassDecl := ⟨⟨⟨"A", blank⟩, blank, [], []⟩⟩

namespace Parser

open Grammar

instance : Nonempty Member := ⟨.field ⟨"x", .int blank, blank, false, false⟩⟩

variable {α β τ υ : Type} {s : Symbol} {b : Nat} {T : List Symbol → τ → Prop}
  {U : List Symbol → υ → Prop}

/-- If the reader fails from a place on `s` with at most `b` symbols before it, then what it has
read is the start of something that `T` spells, and it has not reached its bound. -/
structure Stops (s : Symbol) (b : Nat) (p : Parser α) (T : List Symbol → τ → Prop) : Prop where
  inhabited : ∃ ss t, T ss t
  started : ∀ c f d, c.Ended → c.current.symbol = s → c.symbols.length ≤ b → p c = .error f d →
    f ≠ .tooDeep ∧ ∃ ss more t, c.symbols = ss ++ d.symbols ∧ T (ss ++ more) t

namespace Stops

theorem none {p : Parser α} (hb : b = 0) (h : ∃ ss t, T ss t) : Stops s b p T :=
  ⟨h, fun _ _ _ _ _ hlength _ =>
    absurd (Nat.le_trans hlength (Nat.le_of_eq hb)) (Nat.not_succ_le_zero _)⟩

theorem pure {a : α} (h : ∃ t, T [] t) : Stops s b (Pure.pure a) T := by
  refine ⟨⟨[], h⟩, ?_⟩
  intro c f d _ _ _ hd
  cases hd

theorem throw {e : SyntaxFault} (he : e ≠ .tooDeep)
    (h : ∃ ss t, T ss t) : Stops s b (throw e : Parser α) T := by
  obtain ⟨ss, t, hT⟩ := h
  refine ⟨⟨ss, t, hT⟩, ?_⟩
  intro c f d _ _ _ hd
  cases hd
  exact ⟨he, [], ss, t, rfl, hT⟩

theorem mono {p : Parser α} (hp : Stops s b p T)
    (h : ∀ ss t, T ss t → ∃ u, U ss u) : Stops s b p U := by
  obtain ⟨⟨ss, t, hT⟩, hstarted⟩ := hp
  refine ⟨⟨ss, h ss t hT⟩, ?_⟩
  intro c f d hc hs hb hd
  obtain ⟨hf, ss, more, t, hss, hT⟩ := hstarted c f d hc hs hb hd
  obtain ⟨u, hU⟩ := h _ t hT
  exact ⟨hf, ss, more, u, hss, hU⟩

theorem bind {p : Parser α} {k : α → Parser β} {R : List Symbol → α → Prop} (hp : Stops s b p R)
    (hreads : ReadsAt s p fun ss a _ => R ss a)
    (hk : ∀ a ss s', R ss a → Stops s' (b - ss.length) (k a) fun ss' => U (ss ++ ss')) :
    Stops s b (p >>= k) U := by
  refine ⟨?_, ?_⟩
  · obtain ⟨ss, a, hR⟩ := hp.inhabited
    obtain ⟨ss', u, hU⟩ := (hk a ss s hR).inhabited
    exact ⟨ss ++ ss', u, hU⟩
  · intro c f d hc hs hb hd
    cases hrun : p c with
    | error e c₁ =>
      -- the phrase that was begun can be completed, and then what has to come after it
      rw [EStateM.bind_of_error hrun] at hd
      cases hd
      obtain ⟨hf, ss, more, a, hss, hR⟩ := hp.started c f d hc hs hb hrun
      obtain ⟨ss', u, hU⟩ := (hk a _ s hR).inhabited
      rw [List.append_assoc] at hU
      exact ⟨hf, ss, more ++ ss', u, hss, hU⟩
    | ok a c₁ =>
      rw [EStateM.bind_of_ok hrun] at hd
      obtain ⟨hc₁, ss, hss, hR⟩ := hreads c a c₁ hc hs hrun
      have hlength : c₁.symbols.length ≤ b - ss.length := by
        rw [hss, List.length_append] at hb
        omega
      obtain ⟨hf, ss', more, u, hss', hU⟩ := (hk a ss _ hR).started c₁ f d hc₁ rfl hlength hd
      refine ⟨hf, ss ++ ss', more, u, ?_, ?_⟩
      · rw [hss, hss', List.append_assoc]
      · rw [List.append_assoc]
        exact hU

/-- A phrase, where what comes after it does not depend on its tree. -/
theorem phrase [Nonempty α] {p : Parser α} {k : α → Parser β} {g : α → τ} (hp : Stops s b p T)
    (hreads : ReadsAt s p fun ss a _ => T ss (g a))
    (hk : ∀ a ss t s', T ss t → Stops s' (b - ss.length) (k a) fun ss' => U (ss ++ ss')) :
    Stops s b (p >>= k) U := by
  have hspelled : Stops s b p fun ss (_ : α) => ∃ t, T ss t := hp.mono fun ss t hT => by
    obtain ⟨a⟩ := ‹Nonempty α›
    exact ⟨a, t, hT⟩
  refine hspelled.bind (hreads.mono fun _ _ _ hT => ⟨_, hT⟩) ?_
  rintro a ss s' ⟨t, hT⟩
  exact hk a ss t s' hT

theorem last [Nonempty α] {p : Parser α} {f : α → β} {g : α → τ} (hp : Stops s b p T)
    (hreads : ReadsAt s p fun ss a _ => T ss (g a)) (hU : ∀ ss t, T ss t → ∃ u, U ss u) :
    Stops s b (p >>= fun a => Pure.pure (f a)) U := by
  refine hp.phrase hreads fun a ss t s' hT => .pure ?_
  rw [List.append_nil]
  exact hU ss t hT

theorem peek {k : Symbol → Parser α} (h : Stops s b (k s) T) : Stops s b (Parser.peek >>= k) T := by
  refine ⟨h.inhabited, ?_⟩
  intro c f d hc hs hb hd
  subst hs
  exact h.started c f d hc rfl hb hd

theorem here {k : Span → Parser α}
    (h : ∀ span, Stops s b (k span) T) : Stops s b (Parser.here >>= k) T :=
  ⟨(h blank).inhabited, fun c f d hc hs hb hd => (h c.current.span).started c f d hc hs hb hd⟩

theorem passed {k : Span → Parser α}
    (h : ∀ span, Stops s b (k span) T) : Stops s b (Parser.passed >>= k) T :=
  ⟨(h blank).inhabited, fun c f d hc hs hb hd => (h c.previous).started c f d hc hs hb hd⟩

theorem bounded {p : Nat → Parser α}
    (h : ∀ n b, 3 * b + 3 ≤ n → Stops s b (p n) T) : Stops s b (Parser.bounded p) T := by
  refine ⟨(h 3 0 (Nat.le_refl 3)).inhabited, ?_⟩
  intro c f d hc hs _ hd
  have hlength : c.symbols.length = c.upcoming.length + 1 := by simp [Cursor.symbols]
  refine (h c.depthBound c.symbols.length ?_).started c f d hc hs (Nat.le_refl _) hd
  unfold Cursor.depthBound
  omega

theorem advance {k : Unit → Parser α} (hs : s ≠ .endOfText)
    (h : ∀ s', Stops s' (b - 1) (k ()) fun ss => T (s :: ss)) :
    Stops s b (Parser.advance >>= k) T := by
  have hreads : ReadsAt s Parser.advance fun ss _ _ => ss = [s] :=
    ReadsAt.advance (f := Pure.pure) hs fun _ => .pure rfl
  have hadvance : Stops s b Parser.advance fun ss (_ : Unit) => ss = [s] :=
    ⟨⟨[s], (), rfl⟩, fun c f d _ _ _ hd => by cases hd⟩
  refine hadvance.bind hreads ?_
  rintro - ss s' rfl
  exact h s'

theorem expect {x : Symbol} {k : Unit → Parser α} (hx : x ≠ .endOfText)
    (h : ∀ s', Stops s' (b - 1) (k ()) fun ss => T (x :: ss)) :
    Stops s b (Parser.expect x >>= k) T := by
  have hreads : ReadsAt s (Parser.expect x) fun ss _ _ => ss = [x] := by
    rw [← bind_pure (Parser.expect x)]
    exact .expect hx fun _ => .pure rfl
  have hexpect : Stops s b (Parser.expect x) fun ss (_ : Unit) => ss = [x] := by
    refine .peek ?_
    split
    · rename_i heq
      subst heq
      exact advance (k := Pure.pure) hx fun _ => .pure ⟨(), rfl⟩
    · exact .throw SyntaxFault.noConfusion ⟨[x], (), rfl⟩
  refine hexpect.bind hreads ?_
  rintro - ss s' rfl
  exact h s'

theorem punct {x : Punct} {k : Unit → Parser α}
    (h : ∀ s', Stops s' (b - 1) (k ()) fun ss => T (.punct x :: ss)) :
    Stops s b (expectPunct x >>= k) T :=
  expect Symbol.noConfusion h

theorem identifier {k : Ident → Parser α}
    (h : ∀ x span s', Stops s' (b - 1) (k ⟨x, span⟩) fun ss => T (.identifier x :: ss)) :
    Stops s b (Parser.identifier >>= k) T := by
  have hreads : ReadsAt s Parser.identifier fun ss id _ => ss = [.identifier id.name] := by
    rw [← bind_pure Parser.identifier]
    exact .identifier fun _ _ _ => .pure rfl
  have hid : Stops s b Parser.identifier fun ss (id : Ident) => ss = [.identifier id.name] := by
    refine .peek ?_
    split
    · rename_i x
      exact .here fun span => .advance Symbol.noConfusion fun _ => .pure ⟨⟨x, span⟩, rfl⟩
    · exact .throw SyntaxFault.noConfusion ⟨_, ⟨"x", blank⟩, rfl⟩
  refine hid.bind hreads ?_
  rintro ⟨x, span⟩ ss s' rfl
  exact h x span s'

end Stops

/-! ### Types and references -/

theorem stops_arraySuffix (elem : TypeName) :
    Stops s b (arraySuffix elem) fun ss (_ : Unit) =>
      ss = [] ∨ ss = [.punct .leftBracket, .punct .rightBracket] := by
  refine .peek ?_
  split
  · exact .advance Symbol.noConfusion fun _ => .punct fun _ => .passed fun _ => .pure ⟨(), .inr rfl⟩
  · exact .pure ⟨(), .inl rfl⟩

theorem stops_typeName : Stops s b typeName SpellsType := by
  refine .peek ?_
  split
  · exact .here fun _ => .advance Symbol.noConfusion fun _ => .pure ⟨_, .boolean⟩
  · refine .here fun span => .advance Symbol.noConfusion fun _ =>
      (stops_arraySuffix (.int span)).mono ?_
    rintro ss - (rfl | rfl)
    · exact ⟨_, .int⟩
    · exact ⟨_, .intArray⟩
  · refine .identifier fun x span _ => (stops_arraySuffix (.cls ⟨x, span⟩)).mono ?_
    rintro ss - (rfl | rfl)
    · exact ⟨_, .cls⟩
    · exact ⟨_, .clsArray⟩
  · exact .throw SyntaxFault.noConfusion ⟨_, _, .int⟩

theorem stops_members (n : Nat) (hb : b ≤ n) {rs : List Symbol} {r₀ : Ref} (hr : SpellsRef rs r₀)
    (r : Ref) : Stops s b (members n r) fun ss => SpellsRef (rs ++ ss) := by
  induction n generalizing s b rs r₀ r with
  | zero => exact .none (Nat.le_zero.mp hb) ⟨[], r₀, (List.append_nil rs).symm ▸ hr⟩
  | succ n ih =>
    refine .peek ?_
    split
    · refine .advance Symbol.noConfusion fun _ => .identifier fun x _ _ => ?_
      refine (ih (by omega) (hr.member (x := x)) _).mono fun ss t ht => ⟨t, ?_⟩
      rw [List.append_assoc] at ht
      exact ht
    · refine .pure ⟨r₀, ?_⟩
      rw [List.append_nil]
      exact hr

theorem stops_reference : Stops s b reference SpellsRef := by
  refine .peek ?_
  split
  · exact .here fun _ => .advance Symbol.noConfusion fun _ => .bounded fun n _ hn =>
      stops_members n (by omega) .this _
  · exact .identifier fun _ _ _ => .bounded fun n _ hn => stops_members n (by omega) .name _
  · exact .throw SyntaxFault.noConfusion ⟨_, _, .this⟩

/-! ### Expressions -/

theorem stops_literal {l : Literal} {e : Expr} (hs : s ≠ .endOfText) (h : SpellsOperand [s] e) :
    Stops s b (literal l) SpellsOperand :=
  .here fun _ => .advance hs fun _ => .pure ⟨_, h⟩

-- Three levels at most lie between one symbol and the next: an expression, its first operand, and
-- what the operand is. The bound of each reader says how many of them are left.
mutual

theorem stops_expression :
    ∀ n {s : Symbol} {b : Nat}, 3 * b ≤ n → Stops s b (expressionWithin n) (SpellsExpr 1)
  | 0, _, _, hb => .none (by omega) ⟨_, _, spells_null⟩
  | n + 1, _, b, hb => by
    rw [expressionWithin]
    refine (stops_operand n (by omega)).phrase (reads_operand n _) fun _ ss _ _ hfirst => ?_
    have hpos := length_pos_of_head hfirst.head
    exact (stops_operations n (by omega)).last (reads_operations n _) fun _ _ hrest =>
      exists_expr hfirst hrest

theorem stops_operations : ∀ n {s : Symbol} {b : Nat}, 3 * b ≤ n →
    Stops s b (operationsWithin n) (Operations SpellsOperand)
  | 0, _, _, hb => .none (by omega) ⟨_, _, .nil⟩
  | n + 1, _, _, hb => by
    rw [operationsWithin]
    refine .peek ?_
    split
    · refine .here fun _ => .advance Symbol.noConfusion fun _ => ?_
      refine (stops_operand n (by omega)).phrase (reads_operand n _) fun _ _ _ _ he => ?_
      exact (stops_operations n (by omega)).last (reads_operations n _) fun _ _ hops =>
        ⟨_, .cons he hops⟩
    · exact .pure ⟨_, .nil⟩

theorem stops_operand :
    ∀ n {s : Symbol} {b : Nat}, 3 * b ≤ n + 1 → Stops s b (operandWithin n) SpellsOperand
  | 0, _, _, hb => .none (by omega) ⟨_, _, .nullWord⟩
  | n + 1, s, _, hb => by
    rw [operandWithin]
    refine .peek ?_
    split
    · rename_i op hop
      refine .here fun _ => ?_
      obtain ⟨rfl, rfl⟩ | ⟨rfl, rfl⟩ := unaryOp?_eq_some hop
      · refine .advance Symbol.noConfusion fun _ => ?_
        exact (stops_operand n (by omega)).last (reads_operand n _) fun _ _ he => ⟨_, .not he⟩
      · refine .advance Symbol.noConfusion fun _ => ?_
        exact (stops_operand n (by omega)).last (reads_operand n _) fun _ _ he => ⟨_, .neg he⟩
    · split
      · refine .advance Symbol.noConfusion fun _ => ?_
        exact (stops_expression n (by omega)).phrase (reads_expression n _) fun _ _ _ _ he =>
          .punct fun _ => .pure ⟨_, .paren he⟩
      · split
        · exact .throw SyntaxFault.noConfusion ⟨_, _, .nullWord⟩
        · rename_i hdigits
          exact stops_literal Symbol.noConfusion (.num (Nat.le_of_not_lt hdigits))
      · exact stops_literal Symbol.noConfusion .trueWord
      · exact stops_literal Symbol.noConfusion .falseWord
      · exact stops_literal Symbol.noConfusion .nullWord
      · exact stops_creation n (by omega)
      · exact stops_application n (by omega)
      · exact stops_application n (by omega)
      · exact .throw SyntaxFault.noConfusion ⟨_, _, .nullWord⟩

theorem stops_application :
    ∀ n {s : Symbol} {b : Nat}, 3 * b ≤ n + 2 → Stops s b (applicationWithin n) SpellsOperand
  | 0, _, _, hb => .none (by omega) ⟨_, _, .nullWord⟩
  | n + 1, s, _, hb => by
    rw [applicationWithin]
    refine .here fun _ => stops_reference.phrase (reads_reference s) fun _ ss _ _ hr => .peek ?_
    have hpos : 0 < ss.length :=
      List.length_pos_iff.mpr fun hnil => hr.ne_nil [] (by rw [hnil, List.append_nil])
    split
    · refine .advance Symbol.noConfusion fun _ => ?_
      refine (stops_expression n (by omega)).phrase (reads_expression n _) fun _ _ _ _ hi =>
        .punct fun _ => .passed fun _ => ?_
      exact .pure ⟨_, .index hr hi⟩
    · refine (stops_arguments n (by omega)).phrase (reads_arguments n _) fun _ _ _ _ hargs =>
        .passed fun _ => .pure ?_
      rw [List.append_nil]
      exact ⟨_, .call hr hargs⟩
    · refine .pure ?_
      rw [List.append_nil]
      exact ⟨_, .ref hr⟩

theorem stops_creation :
    ∀ n {b : Nat}, 3 * b ≤ n + 2 → Stops (.keyword .newWord) b (creationWithin n) SpellsOperand
  | 0, _, hb => .none (by omega) ⟨_, _, .nullWord⟩
  | n + 1, _, hb => by
    rw [creationWithin]
    refine .here fun start => .advance Symbol.noConfusion fun _ => .peek ?_
    split
    · refine .here fun span => .advance Symbol.noConfusion fun _ =>
        (stops_newArray n start (.int span) (by omega)).mono ?_
      rintro ss i ⟨is, rfl, hi⟩
      exact ⟨_, .newIntArray hi⟩
    · refine .identifier fun x span _ => .peek ?_
      split
      · exact .advance Symbol.noConfusion fun _ => .punct fun _ => .passed fun _ =>
          .pure ⟨_, .newObject⟩
      · refine (stops_newArray n start (.cls ⟨x, span⟩) (by omega)).mono ?_
        rintro ss i ⟨is, rfl, hi⟩
        exact ⟨_, .newClsArray hi⟩
    · exact .throw SyntaxFault.noConfusion ⟨_, _, .newObject (x := "x")⟩

theorem stops_newArray :
    ∀ n {s : Symbol} {b : Nat} (start : Span) (elem : TypeName), 3 * b ≤ n + 2 →
      Stops s b (newArrayWithin n start elem) fun ss i =>
      ∃ is, ss = .punct .leftBracket :: (is ++ [Symbol.punct .rightBracket]) ∧ SpellsExpr 1 is i
  | 0, _, _, _, _, hb => .none (by omega) ⟨_, _, _, rfl, spells_null⟩
  | n + 1, _, _, _, _, hb => by
    rw [newArrayWithin]
    refine .punct fun _ =>
      (stops_expression n (by omega)).phrase (reads_expression n _) fun _ is _ _ hi => ?_
    exact .punct fun _ => .passed fun _ => .pure ⟨_, is, rfl, hi⟩

theorem stops_arguments :
    ∀ n {s : Symbol} {b : Nat}, 3 * b ≤ n + 1 → Stops s b (argumentsWithin n) SpellsArgs
  | 0, _, _, hb => .none (by omega) ⟨_, _, .nil⟩
  | n + 1, _, _, hb => by
    rw [argumentsWithin]
    refine .punct fun _ => .peek ?_
    split
    · exact .advance Symbol.noConfusion fun _ => .pure ⟨_, .nil⟩
    · refine (stops_expressions n (by omega)).phrase (reads_expressions n _) fun _ _ _ _ hes =>
        .punct fun _ => ?_
      exact .pure ⟨_, .list hes⟩

theorem stops_expressions :
    ∀ n {s : Symbol} {b : Nat}, (0 < b → 3 * b < n) → Stops s b (expressionsWithin n) SpellsExprs
  | 0, _, _, hb => .none (by omega) ⟨_, _, .single spells_null⟩
  | n + 1, _, _, hb => by
    rw [expressionsWithin]
    refine (stops_expression n (by omega)).phrase (reads_expression n _) fun _ _ _ _ he => .peek ?_
    split
    · refine .advance Symbol.noConfusion fun _ => ?_
      exact (stops_expressions n (by omega)).last (reads_expressions n _) fun _ _ hes =>
        ⟨_, .cons he hes⟩
    · refine .pure ?_
      rw [List.append_nil]
      exact ⟨_, .single he⟩

end

theorem stops_wholeExpression : Stops s b expression (SpellsExpr 1) :=
  .bounded fun n _ hn => stops_expression n (by omega)

theorem stops_condition : Stops s b condition fun ss c =>
    ∃ cs, ss = .punct .leftParen :: (cs ++ [Symbol.punct .rightParen]) ∧ SpellsExpr 1 cs c :=
  .punct fun _ => stops_wholeExpression.phrase (reads_wholeExpression _) fun _ cs _ _ hc =>
    .punct fun _ =>
    .pure ⟨_, cs, rfl, hc⟩

/-! ### Statements -/

theorem stops_declarationRest {ts : List Symbol} {t : TypeName} (ht : SpellsType ts t)
    (type : TypeName) (start : Span) :
    Stops s b (declarationRest type start) fun ss => SpellsStmt (ts ++ ss) :=
  .identifier fun _ _ _ => .punct fun _ =>
    stops_wholeExpression.phrase (reads_wholeExpression _) fun _ _ _ _ he =>
    .punct fun _ => .passed fun _ => .pure ⟨_, .declare ht he⟩

theorem stops_indexAssignmentRest {rs : List Symbol} {r₀ : Ref} (hr : SpellsRef rs r₀) (r : Ref)
    (start : Span) :
    Stops s b (indexAssignmentRest r start) fun ss =>
      SpellsStmt (rs ++ .punct .leftBracket :: ss) :=
  stops_wholeExpression.phrase (reads_wholeExpression _) fun _ _ _ _ hi => .punct fun _ =>
    .punct fun _ =>
    stops_wholeExpression.phrase (reads_wholeExpression _) fun _ _ _ _ he => .punct fun _ =>
      .passed fun _ =>
      .pure ⟨_, .assignIndex hr hi he⟩

theorem stops_actionRest {rs : List Symbol} {r₀ : Ref} (hr : SpellsRef rs r₀) (r : Ref)
    (start : Span) : Stops s b (actionRest r start) fun ss => SpellsStmt (rs ++ ss) := by
  refine .peek ?_
  split
  · refine .advance Symbol.noConfusion fun _ =>
      stops_wholeExpression.phrase (reads_wholeExpression _) fun _ _ _ _ he => ?_
    exact .punct fun _ => .passed fun _ => .pure ⟨_, .assign hr he⟩
  · exact .advance Symbol.noConfusion fun _ => stops_indexAssignmentRest hr r start
  · have hstops : Stops (.punct .leftParen) b arguments SpellsArgs :=
      .bounded fun n _ hn => stops_arguments n (by omega)
    refine hstops.phrase (.bounded fun n => reads_arguments n _) fun _ _ _ _ hargs =>
      .punct fun _ => .passed fun _ => ?_
    exact .pure ⟨_, .call hr hargs⟩
  · exact .throw SyntaxFault.noConfusion ⟨_, _, .call hr .nil⟩

theorem stops_nameStatement : Stops s b nameStatement SpellsStmt := by
  refine .here fun start => .identifier fun x span _ => .peek ?_
  have hname : SpellsRef [.identifier x] (Ref.name ⟨x, span⟩ none).shape := .name
  split
  · exact stops_declarationRest .cls _ start
  · refine .advance Symbol.noConfusion fun _ => .peek ?_
    split
    · exact .advance Symbol.noConfusion fun _ => .passed fun _ =>
        stops_declarationRest .clsArray _ start
    · exact stops_indexAssignmentRest hname _ start
  · exact Stops.phrase (.bounded fun n _ hn => stops_members n (by omega) hname _) (.bounded
      fun n => reads_members n hname _)
      fun r _ _ _ hr => stops_actionRest hr r start

theorem stops_returnStatement : Stops (.keyword .returnWord) b returnStatement SpellsStmt := by
  refine .here fun _ => .advance Symbol.noConfusion fun _ => .peek ?_
  split
  · exact .advance Symbol.noConfusion fun _ => .passed fun _ => .pure ⟨_, .retVoid⟩
  · exact stops_wholeExpression.phrase (reads_wholeExpression _) fun _ _ _ _ he => .punct fun _ =>
      .passed fun _ =>
      .pure ⟨_, .ret he⟩

/-- The statements of a block with the brace that ends it. -/
def SpellsBody (ss : List Symbol) (body : List Stmt) : Prop :=
  ∃ bs, ss = bs ++ [.punct .rightBrace] ∧ SpellsStmts bs body

theorem reads_body (n : Nat) :
    ReadsAt s (statementsWithin n) fun ss body _ => SpellsBody ss (Stmt.shapes body) := by
  refine (reads_statements n s).mono ?_
  rintro ss body - ⟨bs, hss, hspells, -⟩
  exact ⟨bs, hss, hspells⟩

theorem reads_stmt (n : Nat) :
    ReadsAt s (statementWithin n) fun ss st _ => SpellsStmt ss st.shape :=
  (reads_statement n s).mono fun _ _ _ h => h.spells

mutual

theorem stops_statement :
    ∀ n {s : Symbol} {b : Nat}, 2 * b ≤ n + 1 → Stops s b (statementWithin n) SpellsStmt
  | 0, _, _, hb => .none (by omega) ⟨_, _, .retVoid⟩
  | n + 1, _, _, hb => by
    rw [statementWithin]
    refine .here fun start => .peek ?_
    split
    · refine .advance Symbol.noConfusion fun _ =>
        (stops_statements n (by omega)).phrase (reads_body n) ?_
      rintro - ss body - ⟨bs, rfl, hbody⟩
      refine .passed fun _ => .pure ?_
      rw [List.append_nil]
      exact ⟨_, .block hbody⟩
    · exact stops_typeName.phrase (reads_typeName _) fun t _ _ _ ht =>
        stops_declarationRest ht t start
    · exact stops_typeName.phrase (reads_typeName _) fun t _ _ _ ht =>
        stops_declarationRest ht t start
    · exact stops_nameStatement
    · exact stops_reference.phrase (reads_reference _) fun r _ _ _ hr => stops_actionRest hr r start
    · exact stops_returnStatement
    · refine .advance Symbol.noConfusion fun _ => stops_condition.phrase (reads_condition _) ?_
      rintro - ss c - ⟨cs, rfl, hc⟩
      refine (stops_statement n (by omega)).phrase (reads_stmt n) fun _ ts t _ ht => .peek ?_
      split
      · refine .advance Symbol.noConfusion fun _ => ?_
        refine (stops_statement n (by omega)).phrase (reads_stmt n) fun _ es e _ he =>
          .passed fun _ => .pure ⟨.ifElse c t e blank, ?_⟩
        simpa using SpellsStmt.ifElse hc ht he
      · refine .passed fun _ => .pure ⟨.ifThen c t blank, ?_⟩
        simpa using SpellsStmt.ifThen hc ht
    · refine .advance Symbol.noConfusion fun _ => stops_condition.phrase (reads_condition _) ?_
      rintro - ss c - ⟨cs, rfl, hc⟩
      refine (stops_statement n (by omega)).phrase (reads_stmt n) fun _ bs t _ ht =>
        .passed fun _ => .pure ⟨.loop c t blank, ?_⟩
      simpa using SpellsStmt.loop hc ht
    · exact .throw SyntaxFault.noConfusion ⟨_, _, .retVoid⟩

theorem stops_statements :
    ∀ n {s : Symbol} {b : Nat}, 2 * b ≤ n → Stops s b (statementsWithin n) SpellsBody
  | 0, _, _, hb => .none (by omega) ⟨_, _, [], rfl, .nil⟩
  | n + 1, _, _, hb => by
    rw [statementsWithin]
    refine .peek ?_
    split
    · exact .advance Symbol.noConfusion fun _ => .pure ⟨_, [], rfl, .nil⟩
    · refine (stops_statement n (by omega)).phrase (reads_stmt n) fun _ ss _ _ hs => ?_
      have hpos := length_pos_of_head hs.head
      refine (stops_statements n (by omega)).last (reads_body n) ?_
      rintro - body ⟨bs, rfl, hbody⟩
      exact ⟨_, ss ++ bs, (List.append_assoc ..).symm, .cons hs hbody⟩

end

/-! ### Declarations -/

theorem stops_parameters (n : Nat) (hb : b ≤ n) : Stops s b (parametersWithin n) SpellsParams := by
  induction n generalizing s b with
  | zero => exact .none (Nat.le_zero.mp hb) ⟨_, _, .single (x := "x") .int⟩
  | succ n ih =>
    refine .here fun _ => stops_typeName.phrase (reads_typeName _) fun _ _ _ _ ht =>
      .identifier fun _ _ _ => .peek ?_
    split
    · refine .advance Symbol.noConfusion fun _ => ?_
      exact (ih (by omega)).last (reads_parameters n _) fun _ _ hvs => ⟨_, .cons ht hvs⟩
    · exact .pure ⟨_, .single ht⟩

/-- The parameters of a method, if it has any, between its parentheses. -/
def SpellsBetween (ss : List Symbol) : List Variable → Prop :=
  SpellsParamList (.punct .leftParen :: (ss ++ [.punct .rightParen]))

theorem reads_between :
    ReadsAt s optionalParameters fun ss vs _ => SpellsBetween ss (vs.map Variable.shape) := by
  refine (reads_optionalParameters s).mono ?_
  rintro ss vs - (⟨rfl, rfl⟩ | hvs)
  · exact .nil
  · exact .list hvs

theorem stops_optionalParameters : Stops s b optionalParameters SpellsBetween := by
  refine .peek ?_
  split
  · exact .pure ⟨_, .nil⟩
  · exact .bounded fun n _ hn => (stops_parameters n (by omega)).mono fun _ _ hvs => ⟨_, .list hvs⟩

theorem stops_visibility : Stops s b visibility SpellsVisibility := by
  refine .peek ?_
  split
  · exact .advance Symbol.noConfusion fun _ => .pure ⟨_, .publicWord⟩
  · exact .advance Symbol.noConfusion fun _ => .pure ⟨_, .privateWord⟩
  · exact .pure ⟨_, .unmarked⟩

theorem stops_access : Stops s b access SpellsAccess := by
  refine .peek ?_
  split
  · exact .advance Symbol.noConfusion fun _ => .pure ⟨_, .staticWord⟩
  · exact .pure ⟨_, .instanceMember⟩

theorem stops_resultType : Stops s b resultType fun ss t => SpellsResult ss (TypeName.shape t) := by
  refine .peek ?_
  split
  · exact .here fun span => .advance Symbol.noConfusion fun _ => .pure ⟨.void span, .void⟩
  · refine stops_typeName.mono fun _ t ht => ⟨t, .type ?_⟩
    cases ht
    · exact .int
    · exact .intArray
    · exact .boolean
    · exact .cls
    · exact .clsArray

theorem stops_methodRest {vs as ts : List Symbol} {isPrivate isStatic : Bool} {t : TypeName}
    {x : String} (start : Span) (hv : SpellsVisibility vs isPrivate)
    (ha : SpellsAccess as isStatic) (ht : SpellsResult ts t.shape) :
    Stops s b (methodRest start isPrivate isStatic t x) fun ss =>
      SpellsMember (vs ++ (as ++ (ts ++ .identifier x :: ss))) := by
  refine .punct fun _ => stops_optionalParameters.phrase reads_between fun _ _ params _ hparams =>
    ?_
  refine .punct fun _ => .punct fun _ => ?_
  refine Stops.phrase (.bounded fun n _ hn => stops_statements n (by omega)) (.bounded fun n =>
    reads_body n) ?_
  rintro - - body - ⟨bs, rfl, hbody⟩
  refine .passed fun _ =>
    .pure ⟨.method ⟨⟨x, t.shape, blank, isPrivate, isStatic, params⟩, body⟩, ?_⟩
  simpa using SpellsMember.method (x := x) hv ha ht hparams hbody

theorem stops_member : Stops s b member SpellsMember := by
  refine .here fun start => stops_visibility.bind (reads_visibility _) fun isPrivate _ _ hv => ?_
  refine stops_access.bind (reads_access _) fun isStatic _ _ ha => ?_
  refine stops_resultType.bind (reads_resultType _) fun t _ _ ht => .identifier fun x _ next =>
    .peek ?_
  split
  · -- whether a semicolon may follow depends on the type that was read
    rename_i h
    obtain ⟨rfl, hvoid⟩ := h
    have hfield := SpellsMember.field (x := x) hv ha (ht.type_of_ne_void (t.ty_shape ▸ hvoid))
    exact .advance Symbol.noConfusion fun _ => .passed fun _ => .pure ⟨_, hfield⟩
  · have hreads := (reads_methodRest (x := x) start hv ha ht next).mono fun _ _ _ h => h.spells
    exact (stops_methodRest start hv ha ht).last hreads fun _ m hm => ⟨m, hm⟩

theorem reads_memberSpelled : ReadsAt s member fun ss m _ => SpellsMember ss m.shape :=
  (reads_member s).mono fun _ _ _ h => h.spells

/-- The members of a class with the brace that ends it. -/
def SpellsClassBody (ss : List Symbol) (ms : List Member) : Prop :=
  ∃ bs, ss = bs ++ [.punct .rightBrace] ∧ SpellsMembers bs ms

theorem reads_classBody (n : Nat) :
    ReadsAt s (membersUntilBrace n) fun ss ms _ => SpellsClassBody ss (ms.map Member.shape) := by
  refine (reads_membersUntilBrace n s).mono ?_
  rintro ss ms - ⟨bs, hss, hspells, -⟩
  exact ⟨bs, hss, hspells⟩

theorem stops_membersUntilBrace (n : Nat) (hb : b ≤ n) :
    Stops s b (membersUntilBrace n) SpellsClassBody := by
  induction n generalizing s b with
  | zero => exact .none (Nat.le_zero.mp hb) ⟨_, _, [], rfl, .nil⟩
  | succ n ih =>
    refine .peek ?_
    split
    · exact .advance Symbol.noConfusion fun _ => .pure ⟨_, [], rfl, .nil⟩
    · refine stops_member.phrase reads_memberSpelled fun _ ss _ _ hm => ?_
      have hpos := length_pos_of_head hm.head
      refine (ih (by omega)).last (reads_classBody n) ?_
      rintro - ms ⟨bs, rfl, hms⟩
      exact ⟨_, ss ++ bs, (List.append_assoc ..).symm, .cons hm hms⟩

theorem stops_classDecl : Stops (.keyword .classWord) b classDecl SpellsClass := by
  refine .here fun _ => .advance Symbol.noConfusion fun _ => .identifier fun x _ _ =>
    .punct fun _ => ?_
  refine Stops.phrase (.bounded fun n _ hn => stops_membersUntilBrace n (by omega)) (.bounded
    fun n => reads_classBody n) ?_
  rintro - - ms - ⟨bs, rfl, hms⟩
  refine .passed fun _ => .pure ?_
  rw [List.append_nil]
  exact ⟨_, .mk hms⟩

theorem stops_classes (n : Nat) (hb : b ≤ n) : Stops s b (classes n) SpellsClasses := by
  induction n generalizing s b with
  | zero => exact .none (Nat.le_zero.mp hb) ⟨_, _, .nil⟩
  | succ n ih =>
    refine .peek ?_
    split
    · refine stops_classDecl.phrase (reads_classDecl.mono fun _ _ _ h => h.1) fun _ ss _ _ hc => ?_
      have hpos : 0 < ss.length := by
        cases hc
        exact Nat.succ_pos _
      exact (ih (by omega)).last ((reads_classes n _).mono fun _ _ _ h => h.1) fun _ _ hcs =>
        ⟨_, .cons hc hcs⟩
    · exact .pure ⟨_, .nil⟩

end Parser

end MiniJava
