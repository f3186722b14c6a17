import MiniJava.Proofs.Syntax.Grammar
import MiniJava.Proofs.Sequence
/-!
What readers do with the symbols before them, in two directions. `Reads` says what the symbols are
that a reader has read; `Accepts` says that a reader succeeds on given symbols, whatever comes
after.
-/
namespace MiniJava

namespace Cursor

variable {c : Cursor} {s : Symbol} {rest : List Symbol}

/-- The symbols from a place on. -/
def symbols (c : Cursor) : List Symbol := c.current.symbol :: c.upcoming.map (·.symbol)

theorem symbols_start {ts : List Token} (h : ts ≠ []) : (start ts).symbols = ts.map (·.symbol) := by
  cases ts with
  | nil => exact absurd rfl h
  | cons t ts => rfl

theorem symbols_advance (h : c.symbols = s :: rest)
    (hrest : rest ≠ []) : c.advance.symbols = rest := by
  obtain ⟨previous, current, upcoming⟩ := c
  obtain ⟨-, rfl⟩ := List.cons.inj h
  cases upcoming with
  | nil => exact absurd rfl hrest
  | cons t ts => rfl

/-- The end of the text is the last symbol and no other. -/
def Ended (c : Cursor) : Prop := ∃ body, c.symbols = body ++ [.endOfText] ∧ .endOfText ∉ body

theorem Ended.advance (h : c.Ended) (hs : c.current.symbol ≠ .endOfText) :
    c.advance.Ended ∧ c.symbols = c.current.symbol :: c.advance.symbols := by
  obtain ⟨body, hbody, hnot⟩ := h
  cases body with
  | nil => exact absurd (List.cons.inj hbody).1 hs
  | cons s body =>
    obtain ⟨rfl, -⟩ := List.cons.inj hbody
    have hadvance :=
      symbols_advance hbody (List.append_ne_nil_of_right_ne_nil _ (List.cons_ne_nil _ _))
    refine ⟨⟨body, hadvance, fun hmem => hnot (List.mem_cons_of_mem _ hmem)⟩, ?_⟩
    rw [hadvance]
    exact hbody

end Cursor

namespace Parser

variable {α β : Type} {s : Symbol}

section Reads

variable {p : Parser α} {f : α → Parser β} {R : List Symbol → α → Symbol → Prop}
  {S : List Symbol → β → Symbol → Prop}

/-- What a reader reads at a symbol: the symbols read, the outcome and the symbol at hand then are
related. -/
def ReadsAt (s : Symbol) (p : Parser α) (R : List Symbol → α → Symbol → Prop) : Prop :=
  ∀ c a c', c.Ended → c.current.symbol = s → p c = .ok a c' →
    c'.Ended ∧ ∃ ss, c.symbols = ss ++ c'.symbols ∧ R ss a c'.current.symbol

/-- What a reader reads at any symbol. -/
def Reads (p : Parser α) (R : List Symbol → α → Symbol → Prop) : Prop := ∀ s, ReadsAt s p R

namespace ReadsAt

theorem pure {a : α} (h : R [] a s) : ReadsAt s (Pure.pure a) R := by
  intro c a' c' hc hs ha
  obtain ⟨rfl, rfl⟩ := EStateM.pure_eq_ok.mp ha
  exact ⟨hc, [], rfl, hs ▸ h⟩

theorem throw {e : SyntaxFault} : ReadsAt s (throw e : Parser α) R := by
  intro c a c' _ _ h
  cases h

theorem bind (hp : ReadsAt s p R)
    (hf : ∀ a ss s', R ss a s' → ReadsAt s' (f a) fun ss' => S (ss ++ ss')) :
    ReadsAt s (p >>= f) S := by
  intro c b c' hc hs h
  obtain ⟨a, u, ha, hb⟩ := EStateM.bind_eq_ok.mp h
  obtain ⟨hu, ss, hss, hR⟩ := hp c a u hc hs ha
  obtain ⟨hc', ss', hss', hS⟩ := hf a ss _ hR u b c' hu rfl hb
  refine ⟨hc', ss ++ ss', ?_, hS⟩
  rw [hss, hss', List.append_assoc]

theorem mono {R' : List Symbol → α → Symbol → Prop} (hp : ReadsAt s p R)
    (h : ∀ ss a s', R ss a s' → R' ss a s') : ReadsAt s p R' := by
  intro c a c' hc hs ha
  obtain ⟨hc', ss, hss, hR⟩ := hp c a c' hc hs ha
  exact ⟨hc', ss, hss, h ss a _ hR⟩

theorem peek {f : Symbol → Parser α} (h : ReadsAt s (f s) R) : ReadsAt s (Parser.peek >>= f) R := by
  intro c a c' hc hs ha
  subst hs
  exact h c a c' hc rfl ha

theorem here {f : Span → Parser α}
    (h : ∀ span, ReadsAt s (f span) R) : ReadsAt s (Parser.here >>= f) R :=
  fun c a c' hc hs ha => h c.current.span c a c' hc hs ha

theorem passed {f : Span → Parser α}
    (h : ∀ span, ReadsAt s (f span) R) : ReadsAt s (Parser.passed >>= f) R :=
  fun c a c' hc hs ha => h c.previous c a c' hc hs ha

theorem bounded {p : Nat → Parser α}
    (h : ∀ n, ReadsAt s (p n) R) : ReadsAt s (Parser.bounded p) R :=
  fun c a c' hc hs ha => h c.depthBound c a c' hc hs ha

theorem advance {f : Unit → Parser α} (hs : s ≠ .endOfText)
    (h : ∀ s', ReadsAt s' (f ()) fun ss => R (s :: ss)) : ReadsAt s (Parser.advance >>= f) R := by
  intro c a c' hc hcur ha
  subst hcur
  obtain ⟨hadvance, hsymbols⟩ := hc.advance hs
  obtain ⟨hc', ss, hss, hR⟩ := h _ c.advance a c' hadvance rfl ha
  refine ⟨hc', c.current.symbol :: ss, ?_, hR⟩
  rw [hsymbols, hss, List.cons_append]

theorem expect {f : Unit → Parser α} {x : Symbol} (hx : x ≠ .endOfText)
    (h : ∀ s', ReadsAt s' (f ()) fun ss => R (x :: ss)) : ReadsAt s (Parser.expect x >>= f) R := by
  have hexpect : ReadsAt s (Parser.expect x) fun ss _ _ => ss = [x] := by
    refine .peek ?_
    split
    · rename_i heq
      subst heq
      exact ReadsAt.advance (f := Pure.pure) hx fun _ => .pure rfl
    · exact .throw
  refine hexpect.bind ?_
  rintro - ss s' rfl
  exact h s'

theorem punct {f : Unit → Parser α} {x : Punct}
    (h : ∀ s', ReadsAt s' (f ()) fun ss => R (.punct x :: ss)) :
    ReadsAt s (expectPunct x >>= f) R :=
  expect Symbol.noConfusion h

theorem identifier {f : Ident → Parser α}
    (h : ∀ x span s', ReadsAt s' (f ⟨x, span⟩) fun ss => R (.identifier x :: ss)) :
    ReadsAt s (Parser.identifier >>= f) R := by
  have hid : ReadsAt s Parser.identifier fun ss id _ => ss = [.identifier id.name] := by
    refine .peek ?_
    split
    · exact .here fun span => .advance Symbol.noConfusion fun _ => .pure rfl
    · exact .throw
  refine hid.bind ?_
  rintro ⟨x, span⟩ ss s' rfl
  exact h x span s'

end ReadsAt

end Reads

section Accepts

variable {p : Parser α} {f : α → Parser β} {ss ss' rest : List Symbol} {P : α → Prop} {Q : β → Prop}

/-- A reader succeeds on some symbols with a rest after them, reads just these, and its outcome
satisfies `P`. -/
def Accepts (p : Parser α) (ss rest : List Symbol) (P : α → Prop) : Prop :=
  rest ≠ [] → ∀ c, c.symbols = ss ++ rest → ∃ a c', p c = .ok a c' ∧ c'.symbols = rest ∧ P a

namespace Accepts

theorem pure {a : α} (h : P a) : Accepts (Pure.pure a) [] rest P := fun _ c hc => ⟨a, c, rfl, hc, h⟩

theorem bind (hp : Accepts p ss (ss' ++ rest) P) (hf : ∀ a, P a → Accepts (f a) ss' rest Q) :
    Accepts (p >>= f) (ss ++ ss') rest Q := by
  intro hrest c hc
  rw [List.append_assoc] at hc
  obtain ⟨a, u, ha, hu, hP⟩ := hp (List.append_ne_nil_of_right_ne_nil _ hrest) c hc
  obtain ⟨b, c', hb, hc', hQ⟩ := hf a hP hrest u hu
  exact ⟨b, c', (EStateM.bind_of_ok ha).trans hb, hc', hQ⟩

theorem last (hp : Accepts p ss rest P)
    (hf : ∀ a, P a → Accepts (f a) [] rest Q) : Accepts (p >>= f) ss rest Q := by
  have hbind : Accepts (p >>= f) (ss ++ []) rest Q := bind hp hf
  rwa [List.append_nil] at hbind

theorem peek {f : Symbol → Parser α} (h : Accepts (f s) (s :: ss) rest P) :
    Accepts (Parser.peek >>= f) (s :: ss) rest P := by
  intro hrest c hc
  obtain ⟨rfl, -⟩ := List.cons.inj hc
  exact h hrest c hc

theorem peekAfter {f : Symbol → Parser α} (h : Accepts (f s) [] (s :: rest) P) :
    Accepts (Parser.peek >>= f) [] (s :: rest) P := by
  intro hrest c hc
  obtain ⟨rfl, -⟩ := List.cons.inj hc
  exact h hrest c hc

theorem here {f : Span → Parser α}
    (h : ∀ span, Accepts (f span) ss rest P) : Accepts (Parser.here >>= f) ss rest P :=
  fun hrest c hc => h c.current.span hrest c hc

theorem passed {f : Span → Parser α}
    (h : ∀ span, Accepts (f span) ss rest P) : Accepts (Parser.passed >>= f) ss rest P :=
  fun hrest c hc => h c.previous hrest c hc

theorem advance {f : Unit → Parser α} (h : Accepts (f ()) ss rest P) :
    Accepts (Parser.advance >>= f) (s :: ss) rest P :=
  fun hrest c hc =>
    h hrest c.advance (Cursor.symbols_advance hc (List.append_ne_nil_of_right_ne_nil _ hrest))

theorem bounded {p : Nat → Parser α} (h : ∀ n, 3 * ss.length + 6 ≤ n → Accepts (p n) ss rest P) :
    Accepts (Parser.bounded p) ss rest P := by
  intro hrest c hc
  have hlength : c.upcoming.length + 1 = ss.length + rest.length := by
    have := congrArg List.length hc
    simpa [Cursor.symbols] using this
  have hpos : 0 < rest.length := List.length_pos_iff.mpr hrest
  exact h c.depthBound (by unfold Cursor.depthBound; omega) hrest c hc

theorem expect {f : Unit → Parser α} (h : Accepts (f ()) ss rest P) :
    Accepts (Parser.expect s >>= f) (s :: ss) rest P := by
  have hexpect : Accepts (Parser.expect s) [s] (ss ++ rest) fun _ => True := by
    refine .peek ?_
    rw [if_pos rfl]
    exact advance (f := Pure.pure) (.pure trivial)
  change Accepts _ ([s] ++ ss) rest P
  exact hexpect.bind fun _ _ => h

theorem punct {f : Unit → Parser α} {x : Punct} (h : Accepts (f ()) ss rest P) :
    Accepts (expectPunct x >>= f) (.punct x :: ss) rest P :=
  expect h

theorem identifier {f : Ident → Parser α} {x : String}
    (h : ∀ span, Accepts (f ⟨x, span⟩) ss rest P) :
    Accepts (Parser.identifier >>= f) (.identifier x :: ss) rest P := by
  have hid : Accepts Parser.identifier [.identifier x] (ss ++ rest) fun id => id.name = x :=
    .peek (.here fun span => .advance (.pure rfl))
  change Accepts _ ([Symbol.identifier x] ++ ss) rest P
  refine hid.bind ?_
  rintro ⟨y, span⟩ rfl
  exact h span

end Accepts

end Accepts

end Parser

end MiniJava
