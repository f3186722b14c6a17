import MiniJava.Proofs.Lines.Nested
import MiniJava.Proofs.Syntax.Lookahead
/-!
Reading keeps track of lines. If the tokens stand on lines in order, then a type, a reference or an
expression that is read is nested, and it stands between the first and the last token that was read
for it.
-/
namespace MiniJava

/-- The lines of the last of some tokens, if there are any. -/
def lastSpan (s : Span) (ts : List Token) : Span := ts.foldl (fun _ t => t.span) s

namespace Cursor

variable {c : Cursor}

/-- The tokens from a place on stand on lines in order, and after the last token read. -/
structure InOrder (c : Cursor) : Prop where
  ended : c.Ended
  proper : ∀ t ∈ c.tokens, t.span.first ≤ t.span.last
  inOrder : c.tokens.Pairwise fun t u => t.span.last ≤ u.span.first
  previous : c.previous.last ≤ c.current.span.first

theorem InOrder.advance (h : c.InOrder) (hs : c.current.symbol ≠ .endOfText) :
    c.advance.InOrder ∧ c.advance.previous = c.current.span ∧
      c.tokens = c.current :: c.advance.tokens := by
  obtain ⟨hended, hproper, hinOrder, -⟩ := h
  obtain ⟨hended', hsymbols⟩ := hended.advance hs
  obtain ⟨previous, current, upcoming⟩ := c
  cases upcoming with
  | nil => cases hsymbols
  | cons t ts =>
    obtain ⟨-, hproper'⟩ := List.forall_mem_cons.mp hproper
    obtain ⟨hfirst, hinOrder'⟩ := List.pairwise_cons.mp hinOrder
    exact ⟨⟨hended', hproper', hinOrder', hfirst t List.mem_cons_self⟩, rfl, rfl⟩

/-- A later place is on no earlier line. -/
theorem InOrder.le_of_tokens {d : Cursor} {ts : List Token} (h : c.InOrder)
    (hts : c.tokens = ts ++ d.tokens) : c.current.span.first ≤ d.current.span.first := by
  cases ts with
  | nil =>
    have hsame : c.current = d.current := (List.cons.inj hts).1
    exact hsame ▸ Int.le_refl _
  | cons t ts =>
    obtain ⟨rfl, hupcoming⟩ := List.cons.inj hts
    have hd : d.current ∈ c.upcoming := by
      rw [hupcoming]
      exact List.mem_append_right _ List.mem_cons_self
    have hproper := h.proper _ List.mem_cons_self
    exact Int.le_trans hproper ((List.pairwise_cons.mp h.inOrder).1 _ hd)

theorem symbols_eq_map (c : Cursor) : c.symbols = c.tokens.map (·.symbol) := rfl

end Cursor

namespace Parser

variable {α β : Type} {s : Span} {t : Token}

section Judgement

variable {p : Parser α} {f : α → Parser β} {R R' : List Token → α → Span → Prop}
  {S : List Token → β → Span → Prop}

/-- What a reader reads at a token `t` behind a token on the lines `s`: the tokens read, the outcome
and the lines of the last token read then are related. -/
def LocatesAt (s : Span) (t : Token) (p : Parser α) (R : List Token → α → Span → Prop) : Prop :=
  ∀ c a c', c.InOrder → c.previous = s → c.current = t → p c = .ok a c' →
    c'.InOrder ∧ ∃ ts, c.tokens = ts ++ c'.tokens ∧ c'.previous = lastSpan s ts ∧ R ts a c'.previous

namespace LocatesAt

theorem pure {a : α} (h : R [] a s) : LocatesAt s t (Pure.pure a) R := by
  intro c a' c' hc hs _ ha
  obtain ⟨rfl, rfl⟩ := EStateM.pure_eq_ok.mp ha
  exact ⟨hc, [], rfl, hs, hs ▸ h⟩

theorem throw {e : SyntaxFault} : LocatesAt s t (throw e : Parser α) R := by
  intro c a c' _ _ _ h
  cases h

theorem order (h : s.last ≤ t.span.first → t.span.first ≤ t.span.last → LocatesAt s t p R) :
    LocatesAt s t p R := by
  intro c a c' hc hs ht ha
  subst hs ht
  exact h hc.previous (hc.proper _ List.mem_cons_self) c a c' hc rfl rfl ha

theorem bind (hp : LocatesAt s t p R)
    (hf : ∀ a ts s' t', t.span.first ≤ t'.span.first → s'.last ≤ t'.span.first →
      t'.span.first ≤ t'.span.last → R ts a s' → LocatesAt s' t' (f a) fun ts' => S (ts ++ ts')) :
    LocatesAt s t (p >>= f) S := by
  intro c b c' hc hs ht h
  obtain ⟨a, u, ha, hb⟩ := EStateM.bind_eq_ok.mp h
  obtain ⟨hu, ts, hts, hlast, hR⟩ := hp c a u hc hs ht ha
  have hlater := ht ▸ hc.le_of_tokens hts
  have hnext := hf a ts u.previous u.current hlater hu.previous (hu.proper _ List.mem_cons_self) hR
  obtain ⟨hc', ts', hts', hlast', hS⟩ := hnext u b c' hu rfl rfl hb
  refine ⟨hc', ts ++ ts', ?_, ?_, hS⟩
  · rw [hts, hts', List.append_assoc]
  · rw [hlast', hlast, lastSpan, lastSpan, lastSpan, List.foldl_append]

theorem mono (hp : LocatesAt s t p R)
    (h : ∀ ts a s', R ts a s' → R' ts a s') : LocatesAt s t p R' := by
  intro c a c' hc hs ht ha
  obtain ⟨hc', ts, hts, hlast, hR⟩ := hp c a c' hc hs ht ha
  exact ⟨hc', ts, hts, hlast, h ts a _ hR⟩

theorem peek {f : Symbol → Parser α}
    (h : LocatesAt s t (f t.symbol) R) : LocatesAt s t (Parser.peek >>= f) R := by
  intro c a c' hc hs ht ha
  subst ht
  exact h c a c' hc hs rfl ha

theorem here {f : Span → Parser α}
    (h : LocatesAt s t (f t.span) R) : LocatesAt s t (Parser.here >>= f) R := by
  intro c a c' hc hs ht ha
  subst ht
  exact h c a c' hc hs rfl ha

theorem passed {f : Span → Parser α}
    (h : LocatesAt s t (f s) R) : LocatesAt s t (Parser.passed >>= f) R := by
  intro c a c' hc hs ht ha
  subst hs
  exact h c a c' hc rfl ht ha

theorem bounded {p : Nat → Parser α}
    (h : ∀ n, LocatesAt s t (p n) R) : LocatesAt s t (Parser.bounded p) R :=
  fun c a c' hc hs ht ha => h c.depthBound c a c' hc hs ht ha

theorem advance {f : Unit → Parser α} {x : Symbol} (ht : t.symbol = x) (hx : x ≠ .endOfText)
    (h : ∀ t', t.span.last ≤ t'.span.first → t'.span.first ≤ t'.span.last →
      LocatesAt t.span t' (f ()) fun ts => R (t :: ts)) :
    LocatesAt s t (Parser.advance >>= f) R := by
  intro c a c' hc hs hcurrent ha
  subst hs hcurrent ht
  obtain ⟨hadvance, hprevious, htokens⟩ := hc.advance hx
  have horder := hadvance.previous
  rw [hprevious] at horder
  have hnext := h c.advance.current horder (hadvance.proper _ List.mem_cons_self)
  obtain ⟨hc', ts, hts, hlast, hR⟩ := hnext c.advance a c' hadvance hprevious rfl ha
  refine ⟨hc', c.current :: ts, ?_, hlast, hR⟩
  rw [htokens, hts, List.cons_append]

theorem punct {f : Unit → Parser α} {x : Punct}
    (h : ∀ t', t.symbol = .punct x → t.span.last ≤ t'.span.first → t'.span.first ≤ t'.span.last →
      LocatesAt t.span t' (f ()) fun ts => R (t :: ts)) :
    LocatesAt s t (expectPunct x >>= f) R := by
  have hexpect : LocatesAt s t (expectPunct x) fun ts _ s' =>
      t.symbol = .punct x ∧ ts = [t] ∧ s' = t.span := by
    refine .peek ?_
    split
    · rename_i heq
      exact LocatesAt.advance (f := Pure.pure) heq Symbol.noConfusion fun _ _ _ =>
        .pure ⟨heq, rfl, rfl⟩
    · exact .throw
  refine hexpect.bind ?_
  rintro - ts s' t' - ho ho' ⟨heq, rfl, rfl⟩
  exact h t' heq ho ho'

theorem identifier {f : Ident → Parser α}
    (h : ∀ x t', t.symbol = .identifier x → t.span.last ≤ t'.span.first →
      t'.span.first ≤ t'.span.last → LocatesAt t.span t' (f ⟨x, t.span⟩) fun ts => R (t :: ts)) :
    LocatesAt s t (Parser.identifier >>= f) R := by
  have hid : LocatesAt s t Parser.identifier fun ts id s' =>
      t.symbol = .identifier id.name ∧ id.span = t.span ∧ ts = [t] ∧ s' = t.span := by
    refine .peek ?_
    split
    · rename_i x heq
      exact .here (.advance heq Symbol.noConfusion fun _ _ _ => .pure ⟨heq, rfl, rfl, rfl⟩)
    · exact .throw
  refine hid.bind ?_
  rintro ⟨x, span⟩ ts s' t' - ho ho' ⟨heq, hspan, rfl, rfl⟩
  cases hspan
  exact h x t' heq ho ho'

theorem spells {Q : List Symbol → α → Symbol → Prop} (hp : LocatesAt s t p R) (hq : Reads p Q) :
    LocatesAt s t p fun ts a s' => R ts a s' ∧ ∃ next, Q (ts.map (·.symbol)) a next := by
  intro c a c' hc hs ht ha
  obtain ⟨hc', ts, hts, hlast, hR⟩ := hp c a c' hc hs ht ha
  obtain ⟨-, ss, hss, hQ⟩ := hq _ c a c' hc.ended rfl ha
  refine ⟨hc', ts, hts, hlast, hR, c'.current.symbol, ?_⟩
  rw [Cursor.symbols_eq_map, hts, List.map_append, ← Cursor.symbols_eq_map] at hss
  rw [List.append_cancel_right hss]
  exact hQ

end LocatesAt

end Judgement

open Phrase

/-- The reader reads nested phrases, each between the first and the last token that is read for
it. -/
def Nests (p : Parser α) (phrase : α → Phrase) : Prop :=
  ∀ s t, LocatesAt s t p fun _ a s' => (phrase a).Inside t.span.first s'.last

theorem locates_arraySuffix {lo : Int} {elem : TypeName} (h : (Phrase.type elem).Inside lo s.last) :
    LocatesAt s t (arraySuffix elem) fun _ a s' => (Phrase.type a).Inside lo s'.last := by
  refine .order fun _ _ => .peek ?_
  split
  · rename_i heq
    refine .advance heq Symbol.noConfusion fun t₁ _ _ => .punct fun _ _ _ _ => .passed (.pure ?_)
    exact h.array (by omega)
  · exact .pure h

theorem nests_typeName : Nests typeName .type := by
  refine fun s t => .order fun _ hproper => .peek ?_
  split
  · rename_i heq
    exact .here (.advance heq Symbol.noConfusion fun _ _ _ => .pure (.row rfl (.nil hproper) .nil))
  · rename_i heq
    exact .here (.advance heq Symbol.noConfusion fun _ _ _ =>
      locates_arraySuffix (.row rfl (.nil hproper) .nil))
  · exact .identifier fun _ _ _ _ _ => locates_arraySuffix (Inside.classType hproper)
  · exact .throw

theorem locates_members (n : Nat) {lo : Int} {r : Ref} (h : (Phrase.ref r).Inside lo s.last) :
    LocatesAt s t (members n r) fun _ a s' => (Phrase.ref a).Inside lo s'.last := by
  induction n generalizing s t r with
  | zero => exact .throw
  | succ n ih =>
    refine .order fun _ _ => .peek ?_
    split
    · rename_i heq
      refine .advance heq Symbol.noConfusion fun t₁ _ hproper => .identifier fun x _ _ _ _ => ih ?_
      exact h.member (by omega) hproper
    · exact .pure h

theorem nests_reference : Nests reference .ref := by
  refine fun s t => .order fun _ hproper => .peek ?_
  split
  · rename_i heq
    refine .here (.advance heq Symbol.noConfusion fun _ _ _ => .bounded fun n =>
      locates_members n ?_)
    exact .row rfl (.nil hproper) .nil
  · exact .identifier fun _ _ _ _ _ => .bounded fun n => locates_members n (Inside.name hproper)
  · exact .throw

theorem locates_literal {l : Literal} {x : Symbol} (ht : t.symbol = x) (hx : x ≠ .endOfText) :
    LocatesAt s t (literal l) fun _ e s' => (Phrase.expr e).Inside t.span.first s'.last :=
  .order fun _ hproper => .here (.advance ht hx fun _ _ _ => .pure (.row rfl (.nil hproper) .nil))

mutual

theorem nests_expression : ∀ n, Nests (expressionWithin n) .expr
  | 0 => fun _ _ => .throw
  | n + 1 => by
    rw [expressionWithin]
    refine fun s t => (nests_operand n s t).bind fun first _ s₁ t₁ _ _ _ hfirst => ?_
    refine (locates_operations n s₁ t₁).bind fun rest _ s₂ t₂ _ _ _ hrest => .pure ?_
    exact Inside.groups (Precedence.tree_eq_iff.mp rfl) hfirst hrest

theorem locates_operations :
    ∀ n s t, LocatesAt s t (operationsWithin n) fun _ ops s' => Operations s.last s'.last ops
  | 0, _, _ => .throw
  | n + 1, s, t => by
    rw [operationsWithin]
    refine .order fun hbehind hproper => .peek ?_
    split
    · rename_i op heq
      refine .here (.advance heq Symbol.noConfusion fun t₁ hnext _ => ?_)
      refine (nests_operand n _ t₁).bind fun e _ s₂ t₂ _ _ _ he => ?_
      exact (locates_operations n s₂ t₂).bind fun rest _ s₃ t₃ _ _ _ hrest =>
        .pure (.cons hbehind hproper hnext he hrest)
    · exact .pure (.nil (Int.le_refl _))

theorem nests_operand : ∀ n, Nests (operandWithin n) .expr
  | 0 => fun _ _ => .throw
  | n + 1 => by
    rw [operandWithin]
    refine fun s t => .order fun _ hproper => .peek ?_
    split
    · rename_i op hop
      have hsymbol : t.symbol ≠ .endOfText := by
        intro heq
        rw [heq] at hop
        cases hop
      refine .here (.advance rfl hsymbol fun t₁ hnext _ => (nests_operand n _ t₁).bind
        fun e _ s₂ t₂ _ _ _ he => .pure ?_)
      exact Inside.unary hproper hnext he
    · split
      · rename_i heq
        refine .advance heq Symbol.noConfusion fun t₁ _ _ =>
          (nests_expression n _ t₁).bind fun e _ s₂ t₂ _ _ _ he => ?_
        exact .punct fun _ _ _ _ => .pure (he.mono (by omega) (by omega))
      · rename_i heq
        split
        · exact .throw
        · exact locates_literal heq Symbol.noConfusion
      · rename_i heq
        exact locates_literal heq Symbol.noConfusion
      · rename_i heq
        exact locates_literal heq Symbol.noConfusion
      · rename_i heq
        exact locates_literal heq Symbol.noConfusion
      · rename_i heq
        exact locates_creation n heq
      · exact nests_application n s t
      · exact nests_application n s t
      · exact .throw

theorem nests_application : ∀ n, Nests (applicationWithin n) .expr
  | 0 => fun _ _ => .throw
  | n + 1 => by
    rw [applicationWithin]
    refine fun s t => .here ((nests_reference s t).bind fun r _ s₁ t₁ _ _ _ hr => .peek ?_)
    split
    · rename_i heq
      refine .advance heq Symbol.noConfusion fun t₂ _ _ =>
        (nests_expression n _ t₂).bind fun i _ s₃ t₃ _ _ _ hi => ?_
      refine .punct fun _ _ _ _ => .passed (.pure ?_)
      exact .row rfl (.cons hr (by omega) (.single (hi.mono (Int.le_refl _) (by omega)))) .nil
    · refine (locates_arguments n s₁ t₁).bind fun args _ s₂ t₂ _ _ _ hargs => .passed (.pure ?_)
      exact .row rfl (.cons hr (by omega) hargs) hargs.inOrder
    · exact .pure hr.value

theorem locates_creation : ∀ n {s t}, t.symbol = .keyword .newWord →
    LocatesAt s t (creationWithin n) fun _ e s' => (Phrase.expr e).Inside t.span.first s'.last
  | 0, _, _, _ => .throw
  | n + 1, s, t, ht => by
    rw [creationWithin]
    refine .order fun _ _ => .here (.advance ht Symbol.noConfusion fun t₁ _ hproper => .peek ?_)
    split
    · rename_i heq
      refine .here (.advance heq Symbol.noConfusion fun t₂ _ _ => ?_)
      have hint : (Phrase.type (.int t₁.span)).Inside t₁.span.first t₁.span.last :=
        .row rfl (.nil hproper) .nil
      exact locates_newArray n hint (by omega)
    · refine .identifier fun x t₂ _ _ _ => .peek ?_
      split
      · rename_i heq
        refine .advance heq Symbol.noConfusion fun t₃ _ _ => .punct fun _ _ _ _ =>
          .passed (.pure ?_)
        exact .row rfl (.single ((Inside.ident hproper).mono (by omega) (by omega))) .nil
      · exact locates_newArray n (Inside.classType hproper) (by omega)
    · exact .throw

theorem locates_newArray :
    ∀ n {lo s t start elem}, (Phrase.type elem).Inside lo s.last → start.first ≤ lo →
      LocatesAt s t (newArrayWithin n start elem) fun _ e s' =>
      (Phrase.expr e).Inside start.first s'.last
  | 0, _, _, _, _, _, _, _ => .throw
  | n + 1, lo, s, t, start, elem, helem, hstart => by
    rw [newArrayWithin]
    refine .order fun _ _ => .punct fun t₁ _ _ _ =>
      (nests_expression n _ t₁).bind fun size _ s₂ t₂ _ _ _ hsize => ?_
    refine .punct fun _ _ _ _ => .passed (.pure ?_)
    exact .row rfl (.cons (helem.mono hstart (Int.le_refl _)) (by omega)
      (.single (hsize.mono (Int.le_refl _) (by omega)))) .nil

theorem locates_arguments : ∀ n s t, LocatesAt s t (argumentsWithin n) fun _ args s' =>
    Row t.span.first s'.last (args.map .expr)
  | 0, _, _ => .throw
  | n + 1, s, t => by
    rw [argumentsWithin]
    refine .order fun _ _ => .punct fun t₁ _ _ _ => .peek ?_
    split
    · rename_i heq
      exact .advance heq Symbol.noConfusion fun _ _ _ => .pure (.nil (by omega))
    · refine (locates_expressions n _ t₁).bind fun args _ s₂ t₂ _ _ _ hargs => ?_
      exact .punct fun _ _ _ _ => .pure (hargs.mono (by omega) (by omega))

theorem locates_expressions : ∀ n s t, LocatesAt s t (expressionsWithin n) fun _ es s' =>
    Row t.span.first s'.last (es.map .expr)
  | 0, _, _ => .throw
  | n + 1, s, t => by
    rw [expressionsWithin]
    refine (nests_expression n s t).bind fun e _ s₁ t₁ _ _ _ he => .peek ?_
    split
    · rename_i heq
      refine .advance heq Symbol.noConfusion fun t₂ _ _ =>
        (locates_expressions n _ t₂).bind fun es _ s₃ t₃ _ _ _ hes => .pure ?_
      exact .cons he (by omega) hes
    · exact .pure (.cons he (Int.le_refl _) (.nil (Int.le_refl _)))

end

theorem nests_wholeExpression : Nests Parser.expression .expr :=
  fun s t => .bounded fun n => nests_expression n s t

end Parser

end MiniJava
