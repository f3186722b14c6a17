import MiniJava.Proofs.Lines.Expressions
/-!
On which tokens statements stand. The rules split the tokens of a statement into those of the
statements in it, as the grammar does, and each statement takes the lines from its first token
through its last one.
-/
namespace MiniJava

/-- The symbols of some tokens. -/
def Token.symbols (ts : List Token) : List Symbol := ts.map (·.symbol)

/-- The lines from the first of some tokens through the last of them. -/
def Span.Frames (s : Span) (ts : List Token) : Prop :=
  ∃ t u, ts.head? = some t ∧ ts.getLast? = some u ∧ s = t.span.through u.span

/-- The statements of which a statement is made. -/
def Stmt.inner : Stmt → List Stmt
  | block body _ => body
  | ifThen _ t _ => [t]
  | ifElse _ t e _ => [t, e]
  | loop _ body _ => [body]
  | _ => []

namespace Grammar

/-- `( Expr )` -/
inductive StandsInParens : List Token → Expr → Prop
  | mk {l r : Token} {ts e} : l.symbol = .punct .leftParen →
      SpellsExpr 1 (Token.symbols ts) e.shape →
      r.symbol = .punct .rightParen → StandsInParens (l :: (ts ++ [r])) e

mutual

/-- The tokens of a statement, with those of the statements in it. -/
inductive StmtParts : List Token → Stmt → Prop
  | plain {ts s} : s.inner = [] → SpellsStmt (Token.symbols ts) s.shape → StmtParts ts s
  | block {l r : Token} {ts body span} : l.symbol = .punct .leftBrace → StmtsStand ts body →
      r.symbol = .punct .rightBrace → StmtParts (l :: (ts ++ [r])) (.block body span)
  | ifThen {k : Token} {cs c ts t span} : k.symbol = .keyword .ifWord → StandsInParens cs c →
      StmtStands ts t →
      StmtParts (k :: (cs ++ ts)) (.ifThen c t span)
  | ifElse {k l : Token} {cs c ts t es e span} : k.symbol = .keyword .ifWord → StandsInParens cs c →
      StmtStands ts t →
      l.symbol = .keyword .elseWord → StmtStands es e →
        StmtParts (k :: (cs ++ (ts ++ l :: es))) (.ifElse c t e span)
  | loop {k : Token} {cs c ts b span} : k.symbol = .keyword .whileWord → StandsInParens cs c →
      StmtStands ts b →
      StmtParts (k :: (cs ++ ts)) (.loop c b span)

/-- A statement on the lines of its tokens. -/
inductive StmtStands : List Token → Stmt → Prop
  | mk {ts s} : StmtParts ts s → s.span.Frames ts → StmtStands ts s

inductive StmtsStand : List Token → List Stmt → Prop
  | nil : StmtsStand [] []
  | cons {ts s ts' ss} : StmtStands ts s → StmtsStand ts' ss → StmtsStand (ts ++ ts') (s :: ss)

end

theorem SpellsType.ne_nil {ss : List Symbol} {t : TypeName} (h : SpellsType ss t) : ss ≠ [] := by
  cases h <;> simp

theorem SpellsStmt.ne_nil {ss : List Symbol} {s : Stmt} (h : SpellsStmt ss s) : ss ≠ [] := by
  cases h <;> simp

end Grammar

namespace Parser

open Grammar Phrase

variable {α : Type} {p : Parser α} {R : List Token → α → Span → Prop} {s : Span} {t : Token}

theorem lastSpan_of_getLast? {ts : List Token} {u : Token}
    (h : ts.getLast? = some u) : lastSpan s ts = u.span := by
  obtain ⟨init, rfl⟩ := List.getLast?_eq_some_iff.mp h
  rw [lastSpan, List.foldl_append]
  rfl

theorem LocatesAt.starts (h : LocatesAt s t p R) :
    LocatesAt s t p fun ts a s' =>
      R ts a s' ∧ (ts ≠ [] → ts.head? = some t ∧ (t.span.through s').Frames ts) := by
  intro c a c' hc hs ht ha
  obtain ⟨hc', ts, hts, hlast, hR⟩ := h c a c' hc hs ht ha
  refine ⟨hc', ts, hts, hlast, hR, fun hne => ?_⟩
  have hhead : ts.head? = some t := by
    cases ts with
    | nil => exact absurd rfl hne
    | cons u us =>
      obtain ⟨hu, -⟩ := List.cons.inj hts
      rw [← hu, ht]
      rfl
  refine ⟨hhead, t, ts.getLast hne, hhead, List.getLast?_eq_some_getLast hne, ?_⟩
  rw [hlast, lastSpan_of_getLast? (List.getLast?_eq_some_getLast hne)]

/-- What is read on the lines from the token at hand through the last token read stands on these
tokens. -/
theorem LocatesAt.framed {f : α → Span} {P : α → Span → Prop} {Q : List Token → α → Prop}
    (h : LocatesAt s t p fun ts a s' => P a s' ∧ f a = t.span.through s' ∧ ts ≠ [] ∧
      ((f a).Frames ts → Q ts a)) : LocatesAt s t p fun ts a s' => P a s' ∧ Q ts a := by
  refine h.starts.mono ?_
  rintro ts a s' ⟨⟨hP, hspan, hne, hQ⟩, hframes⟩
  refine ⟨hP, hQ ?_⟩
  rw [hspan]
  exact (hframes hne).2

theorem nests_condition (s : Span) (t : Token) : LocatesAt s t condition fun ts e s' =>
    (Phrase.expr e).Inside t.span.first s'.last ∧ StandsInParens ts e := by
  refine .order fun _ _ => .punct fun t₁ hleft _ _ => ?_
  refine ((nests_wholeExpression _ t₁).spells reads_wholeExpression).bind fun e ts s₂ t₂ _ _ _ he =>
    ?_
  obtain ⟨he, next, hspells⟩ := he
  exact .punct fun _ hright _ _ => .pure ⟨he.mono (by omega) (by omega), .mk hleft hspells hright⟩

/-- A statement that has been read from a token on the lines `start` to the one on the lines
`last`. -/
structure StmtLocated (start : Span) (x : Stmt) (last : Span) : Prop where
  inside : (Phrase.stmt x).Inside start.first last.last
  span : x.span = start.through last

/-- The same for a statement without statements in it. -/
structure PlainLocated (start : Span) (x : Stmt)
    (last : Span) : Prop extends StmtLocated start x last where
  plain : x.inner = []

theorem locates_declarationRest {type : TypeName} {start : Span}
    (h : (Phrase.type type).Inside start.first s.last) :
    LocatesAt s t (declarationRest type start) fun _ => PlainLocated start := by
  refine .order fun _ _ => .identifier fun x t₁ _ _ _ => .punct fun t₂ _ _ _ => ?_
  refine (nests_wholeExpression _ t₂).bind fun init _ s₃ t₃ _ _ _ hinit => .punct fun _ _ _ _ =>
    .passed (.pure ?_)
  have hvar : (Phrase.var ⟨x, type, start.through t.span⟩).Inside start.first t.span.last :=
    .row rfl (.single (h.mono (Int.le_refl _) (by omega))) .nil
  refine ⟨⟨?_, rfl⟩, rfl⟩
  exact .row rfl (.cons hvar (by omega) (.single (hinit.mono (Int.le_refl _) (by omega)))) .nil

theorem locates_indexAssignmentRest {r : Ref} {start : Span}
    (h : (Phrase.ref r).Inside start.first s.last) :
    LocatesAt s t (indexAssignmentRest r start) fun _ => PlainLocated start := by
  refine .order fun _ _ => (nests_wholeExpression _ t).bind fun i _ s₁ t₁ _ _ _ hi => ?_
  refine .punct fun t₂ _ _ _ => .punct fun t₃ _ _ _ => ?_
  refine (nests_wholeExpression _ t₃).bind fun value _ s₄ t₄ _ _ _ hvalue => .punct fun _ _ _ _ =>
    .passed (.pure ?_)
  refine ⟨⟨?_, rfl⟩, rfl⟩
  exact .row rfl
    (.cons h (by omega) (.cons hi (by omega) (.single (hvalue.mono (Int.le_refl _) (by omega)))))
    .nil

theorem locates_actionRest {r : Ref} {start : Span} (h : (Phrase.ref r).Inside start.first s.last) :
    LocatesAt s t (actionRest r start) fun _ => PlainLocated start := by
  refine .order fun _ _ => .peek ?_
  split
  · rename_i heq
    refine .advance heq Symbol.noConfusion fun t₁ _ _ => ?_
    refine (nests_wholeExpression _ t₁).bind fun value _ s₂ t₂ _ _ _ hvalue => .punct fun _ _ _ _ =>
      .passed (.pure ?_)
    refine ⟨⟨?_, rfl⟩, rfl⟩
    exact .row rfl (.cons h (by omega) (.single (hvalue.mono (Int.le_refl _) (by omega)))) .nil
  · rename_i heq
    exact .advance heq Symbol.noConfusion fun t₁ _ _ =>
      locates_indexAssignmentRest (h.mono (Int.le_refl _) (by omega))
  · refine LocatesAt.bind (.bounded fun n => locates_arguments n s t)
      fun args _ s₁ t₁ _ _ _ hargs => ?_
    refine .punct fun _ _ _ _ => .passed (.pure ⟨⟨?_, rfl⟩, rfl⟩)
    exact .row rfl (.cons h (by omega) (hargs.mono (Int.le_refl _) (by omega))) hargs.inOrder
  · exact .throw

theorem locates_nameStatement (s : Span) (t : Token) :
    LocatesAt s t nameStatement fun _ => PlainLocated t.span := by
  refine .order fun _ hproper => .here (.identifier fun x t₁ _ _ _ => .peek ?_)
  split
  · exact locates_declarationRest (Inside.classType hproper)
  · rename_i heq
    refine .advance heq Symbol.noConfusion fun t₂ _ _ => .peek ?_
    split
    · rename_i heq'
      refine .advance heq' Symbol.noConfusion fun t₃ _ _ => .passed (locates_declarationRest ?_)
      exact (Inside.classType hproper).array (by omega)
    · exact locates_indexAssignmentRest ((Inside.name hproper).mono (Int.le_refl _) (by omega))
  · refine LocatesAt.bind (.bounded fun n => locates_members n (Inside.name hproper))
      fun r _ s₂ t₂ _ _ _ hr => ?_
    exact locates_actionRest hr

theorem locates_returnStatement (ht : t.symbol = .keyword .returnWord) :
    LocatesAt s t returnStatement fun _ => PlainLocated t.span := by
  refine .order fun _ _ => .here (.advance ht Symbol.noConfusion fun t₁ _ _ => .peek ?_)
  split
  · rename_i heq
    refine .advance heq Symbol.noConfusion fun t₂ _ _ => .passed (.pure ⟨⟨?_, rfl⟩, rfl⟩)
    exact .row rfl (.nil (by omega)) .nil
  · refine (nests_wholeExpression _ t₁).bind fun value _ s₂ t₂ _ _ _ hvalue => .punct fun _ _ _ _ =>
      ?_
    refine .passed (.pure ⟨⟨?_, rfl⟩, rfl⟩)
    exact .row rfl (.single (hvalue.mono (by omega) (by omega))) .nil

/-- A statement that is read stands on its tokens. -/
structure StmtPlaced (t : Token) (ts : List Token) (x : Stmt) (last : Span) : Prop where
  inside : (Phrase.stmt x).Inside t.span.first last.last
  stands : StmtStands ts x

/-- The tokens of a statement that has been located are those that spell it. -/
theorem LocatesAt.statement {p : Parser Stmt}
    (h : LocatesAt s t p fun ts x s' => StmtLocated t.span x s' ∧ (x.inner = [] ∨ StmtParts ts x))
    (hp : Reads p StmtRead) : LocatesAt s t p (StmtPlaced t) := by
  refine (h.spells hp).starts.mono ?_
  rintro ts x s' ⟨⟨⟨hlocated, hparts⟩, next, hread⟩, hframes⟩
  have hne : ts ≠ [] := by
    rintro rfl
    exact hread.spells.ne_nil rfl
  refine ⟨hlocated.inside, .mk ?_ (hlocated.span ▸ (hframes hne).2)⟩
  rcases hparts with hplain | hparts
  · exact .plain hplain hread.spells
  · exact hparts

theorem LocatesAt.plain {p : Parser Stmt} (h : LocatesAt s t p fun _ => PlainLocated t.span) :
    LocatesAt s t p fun ts x s' => StmtLocated t.span x s' ∧ (x.inner = [] ∨ StmtParts ts x) :=
  h.mono fun _ _ _ hx => ⟨hx.toStmtLocated, .inl hx.plain⟩

mutual

theorem locates_statement : ∀ n s t, LocatesAt s t (statementWithin n) (StmtPlaced t)
  | 0, _, _ => .throw
  | n + 1, s, t => by
    refine LocatesAt.statement ?_ (reads_statement (n + 1))
    rw [statementWithin]
    refine .order fun _ hproper => .here (.peek ?_)
    split
    · rename_i heq
      refine .advance heq Symbol.noConfusion fun t₁ _ _ =>
        (locates_statements n _ t₁).bind fun body ts s₂ t₂ _ _ _ hbody => ?_
      obtain ⟨hrow, us, r, rfl, hstand, hright⟩ := hbody
      refine .passed (.pure ⟨⟨?_, rfl⟩, .inr ?_⟩)
      · have hrow' := hrow.mono (show t.span.first ≤ t₁.span.first by omega) (Int.le_refl _)
        exact .row rfl hrow' hrow.inOrder
      · rw [List.append_nil]
        exact .block heq hstand hright
    · exact ((nests_typeName s t).bind fun type _ s₁ t₁ _ _ _ htype =>
        locates_declarationRest htype).plain
    · exact ((nests_typeName s t).bind fun type _ s₁ t₁ _ _ _ htype =>
        locates_declarationRest htype).plain
    · exact (locates_nameStatement s t).plain
    · exact ((nests_reference s t).bind fun r _ s₁ t₁ _ _ _ hr => locates_actionRest hr).plain
    · rename_i heq
      exact (locates_returnStatement heq).plain
    · rename_i heq
      refine .advance heq Symbol.noConfusion fun t₁ _ _ =>
        (nests_condition _ t₁).bind fun c cs s₂ t₂ _ _ _ hc => ?_
      obtain ⟨hc, hcs⟩ := hc
      have hcond : (Phrase.expr c).Inside t.span.first s₂.last := hc.mono (by omega) (Int.le_refl _)
      refine (locates_statement n _ t₂).bind fun x ts s₃ t₃ _ _ _ hx => .peek ?_
      have hrow := Row.cons hcond (by omega) (.single hx.inside)
      split
      · rename_i helse
        refine .advance helse Symbol.noConfusion fun t₄ _ _ =>
          (locates_statement n _ t₄).bind fun y es s₅ t₅ _ _ _ hy => ?_
        have hrow' := Row.cons hcond (by omega) (.cons hx.inside (by omega) (.single hy.inside))
        refine .passed (.pure ⟨⟨.row rfl hrow' .nil, rfl⟩, .inr ?_⟩)
        rw [List.append_nil]
        exact .ifElse heq hcs hx.stands helse hy.stands
      · refine .passed (.pure ⟨⟨.row rfl hrow .nil, rfl⟩, .inr ?_⟩)
        rw [List.append_nil]
        exact .ifThen heq hcs hx.stands
    · rename_i heq
      refine .advance heq Symbol.noConfusion fun t₁ _ _ =>
        (nests_condition _ t₁).bind fun c cs s₂ t₂ _ _ _ hc => ?_
      obtain ⟨hc, hcs⟩ := hc
      have hcond : (Phrase.expr c).Inside t.span.first s₂.last := hc.mono (by omega) (Int.le_refl _)
      refine (locates_statement n _ t₂).bind fun x ts s₃ t₃ _ _ _ hx => ?_
      have hrow := Row.cons hcond (by omega) (.single hx.inside)
      refine .passed (.pure ⟨⟨.row rfl hrow .nil, rfl⟩, .inr ?_⟩)
      rw [List.append_nil]
      exact .loop heq hcs hx.stands
    · exact .throw

theorem locates_statements :
    ∀ n s t, LocatesAt s t (statementsWithin n) fun ts body s' =>
      Row t.span.first s'.last (body.map .stmt) ∧ ∃ (us : List Token) (r : Token), ts = us ++ [r] ∧
      StmtsStand us body ∧ r.symbol = .punct .rightBrace
  | 0, _, _ => .throw
  | n + 1, s, t => by
    rw [statementsWithin]
    refine .order fun _ hproper => .peek ?_
    split
    · rename_i heq
      exact .advance heq Symbol.noConfusion fun _ _ _ => .pure ⟨.nil hproper, [], t, rfl, .nil, heq⟩
    · refine (locates_statement n s t).bind fun x ts s₁ t₁ _ _ _ hx => ?_
      refine (locates_statements n s₁ t₁).bind fun body ts' s₂ t₂ _ _ _ hbody => .pure ?_
      obtain ⟨hrow, us, r, rfl, hstand, hright⟩ := hbody
      refine ⟨.cons hx.inside (by omega) hrow, ts ++ us, r, ?_, .cons hx.stands hstand, hright⟩
      rw [List.append_nil, List.append_assoc]

end

end Parser

end MiniJava
