import MiniJava.Proofs.Lines.Standing
import MiniJava.Proofs.Syntax.Faults
import MiniJava.Proofs.Token.Reading
/-!
The lines of a program. Declarations stand on their tokens as statements do, and all phrases of a
program that is read from a source are nested.
-/
namespace MiniJava

namespace Grammar

/-- `Type id ( , Type id )*`, each parameter on the lines of its tokens. -/
inductive ParamsStand : List Token → List Variable → Prop
  | single {ts x} {v : Variable} : SpellsType (Token.symbols ts) v.type.shape →
      x.symbol = .identifier v.name →
      v.span.Frames (ts ++ [x]) → ParamsStand (ts ++ [x]) [v]
  | cons {ts x} {comma : Token} {v : Variable} {us vs} :
      SpellsType (Token.symbols ts) v.type.shape →
      x.symbol = .identifier v.name → v.span.Frames (ts ++ [x]) → comma.symbol = .punct .comma →
        ParamsStand us vs →
      ParamsStand (ts ++ x :: comma :: us) (v :: vs)

/-- `Visibility Access ( void | Type ) id` -/
inductive StandsAhead : List Token → Bool → Bool → TypeName → String → Prop
  | mk {vs as ts x isPrivate isStatic t name} : SpellsVisibility (Token.symbols vs) isPrivate →
      SpellsAccess (Token.symbols as) isStatic → SpellsResult (Token.symbols ts) t.shape →
        x.symbol = .identifier name →
      StandsAhead (vs ++ (as ++ (ts ++ [x]))) isPrivate isStatic t name

/-- `( Params? ) { Stmt* }` -/
inductive MethodRest : List Token → List Variable → List Stmt → Prop
  | mk {l r l' r' : Token} {ps params ts body} : l.symbol = .punct .leftParen →
      (ps = [] ∧ params = [] ∨ ParamsStand ps params) → r.symbol = .punct .rightParen →
        l'.symbol = .punct .leftBrace →
      StmtsStand ts body → r'.symbol = .punct .rightBrace →
      MethodRest (l :: (ps ++ r :: l' :: (ts ++ [r']))) params body

/-- A field or method on the lines of its tokens. -/
inductive MemberStands : List Token → Parser.Member → Prop
  | field {hs} {x : Token} {f : Field} : StandsAhead hs f.isPrivate f.isStatic f.type f.name →
      x.symbol = .punct .semicolon →
      f.span.Frames (hs ++ [x]) → MemberStands (hs ++ [x]) (.field f)
  | method {hs ts} {m : Method} : StandsAhead hs m.isPrivate m.isStatic m.type m.name →
      MethodRest ts m.params m.body →
      m.span.Frames (hs ++ ts) → MemberStands (hs ++ ts) (.method m)

inductive MembersStand : List Token → List Parser.Member → Prop
  | nil : MembersStand [] []
  | cons {ts m ts' ms} : MemberStands ts m → MembersStand ts' ms →
      MembersStand (ts ++ ts') (m :: ms)

/-- `class id { Member* }`, on the lines of its tokens. -/
inductive ClassStands : List Token → ClassDecl → Prop
  | mk {k x l r : Token} {ts ms} {c : ClassDecl} : k.symbol = .keyword .classWord →
      x.symbol = .identifier c.name →
      l.symbol = .punct .leftBrace → MembersStand ts ms → r.symbol = .punct .rightBrace →
      c.fields = ms.filterMap Parser.Member.field? →
        c.methods = ms.filterMap Parser.Member.method? →
      c.span.Frames (k :: x :: l :: (ts ++ [r])) → ClassStands (k :: x :: l :: (ts ++ [r])) c

inductive ClassesStand : List Token → List ClassDecl → Prop
  | nil : ClassesStand [] []
  | cons {ts c ts' cs} : ClassStands ts c → ClassesStand ts' cs → ClassesStand (ts ++ ts') (c :: cs)

/-- `ClassDecl* endOfText` -/
inductive ProgramStands : List Token → Program → Prop
  | mk {ts} {x : Token} {p : Program} : ClassesStand ts p.classes → x.symbol = .endOfText →
      ProgramStands (ts ++ [x]) p

end Grammar

namespace Parser

open Grammar Phrase

variable {s : Span} {t : Token}

theorem locates_parameters (n : Nat) (s : Span) (t : Token) :
    LocatesAt s t (parametersWithin n) fun ts vs s' =>
      Row t.span.first s'.last (vs.map .var) ∧ ParamsStand ts vs := by
  induction n generalizing s t with
  | zero => exact .throw
  | succ n ih =>
    rw [parametersWithin]
    refine .order fun _ _ => .here ?_
    refine ((nests_typeName s t).spells reads_typeName).starts.bind fun type ts s₁ t₁ _ _ _ htype =>
      ?_
    obtain ⟨⟨htype, next, hspells⟩, hstarts⟩ := htype
    have hne : ts ≠ [] := by
      rintro rfl
      exact hspells.ne_nil rfl
    refine .identifier fun x t₂ hx _ _ => .peek ?_
    have hvar : (Phrase.var ⟨x, type, t.span.through t₁.span⟩).Inside t.span.first t₁.span.last :=
      .row rfl (.single (htype.mono (Int.le_refl _) (by omega))) .nil
    have hframes : (t.span.through t₁.span).Frames (ts ++ [t₁]) := by
      refine ⟨t, t₁, ?_, List.getLast?_concat, rfl⟩
      rw [List.head?_append, (hstarts hne).1]
      rfl
    split
    · rename_i hcomma
      refine .advance hcomma Symbol.noConfusion fun t₃ _ _ =>
        (ih _ t₃).bind fun vs us s₄ t₄ _ _ _ hvs => ?_
      refine .pure ⟨.cons hvar (by omega) hvs.1, ?_⟩
      rw [List.append_nil]
      exact .cons hspells hx hframes hcomma hvs.2
    · exact .pure ⟨.single hvar, .single hspells hx hframes⟩

theorem locates_optionalParameters (s : Span) (t : Token) :
    LocatesAt s t optionalParameters fun ts vs s' =>
      Row s.last s'.last (vs.map .var) ∧ (ts = [] ∧ vs = [] ∨ ParamsStand ts vs) := by
  refine .order fun hbehind _ => .peek ?_
  split
  · exact .pure ⟨.nil (Int.le_refl _), .inl ⟨rfl, rfl⟩⟩
  · refine .bounded fun n => (locates_parameters n s t).mono fun _ _ _ h => ?_
    exact ⟨h.1.mono hbehind (Int.le_refl _), .inr h.2⟩

theorem locates_visibility (s : Span) (t : Token) : LocatesAt s t visibility fun _ _ _ => True := by
  refine .peek ?_
  split
  · rename_i heq
    exact .advance heq Symbol.noConfusion fun _ _ _ => .pure trivial
  · rename_i heq
    exact .advance heq Symbol.noConfusion fun _ _ _ => .pure trivial
  · exact .pure trivial

theorem locates_access (s : Span) (t : Token) : LocatesAt s t access fun _ _ _ => True := by
  refine .peek ?_
  split
  · rename_i heq
    exact .advance heq Symbol.noConfusion fun _ _ _ => .pure trivial
  · exact .pure trivial

theorem nests_resultType : Nests resultType .type := by
  refine fun s t => .order fun _ hproper => .peek ?_
  split
  · rename_i heq
    exact .here (.advance heq Symbol.noConfusion fun _ _ _ => .pure (.row rfl (.nil hproper) .nil))
  · exact nests_typeName s t

theorem locates_methodRest {isPrivate isStatic : Bool} {type : TypeName} {x : String}
    {start : Span} (h : (Phrase.type type).Inside start.first s.last) :
    LocatesAt s t (methodRest start isPrivate isStatic type x) fun ts m s' =>
      (Phrase.method m).Inside start.first s'.last ∧ m.span = start.through s' ∧
      MethodRest ts m.params m.body ∧
        m.isPrivate = isPrivate ∧ m.isStatic = isStatic ∧ m.type = type ∧ m.name = x := by
  refine .order fun _ _ => .punct fun t₁ hleft _ _ => ?_
  refine (locates_optionalParameters _ t₁).bind fun params ps s₂ t₂ _ _ _ hparams => ?_
  refine .punct fun t₃ hright _ _ => .punct fun t₄ hleft' _ _ => ?_
  refine LocatesAt.bind (.bounded fun n => locates_statements n _ t₄)
    fun body ts s₅ t₅ _ _ _ hbody => .passed (.pure ?_)
  obtain ⟨hrow, us, r, rfl, hstand, hright'⟩ := hbody
  obtain ⟨hparams, hps⟩ := hparams
  have hparts : Row start.first s₅.last (.type type :: (params.map .var ++ body.map .stmt)) :=
    .cons h (by omega) (hparams.append (by omega) hrow)
  refine ⟨.row rfl hparts hrow.inOrder, rfl, ?_, rfl, rfl, rfl, rfl⟩
  rw [List.append_nil]
  exact .mk hleft hps hright hleft' hstand hright'

def Member.phrase : Member → Phrase
  | .field f => .field f
  | .method m => .method m

theorem locates_member (s : Span) (t : Token) : LocatesAt s t member fun ts m s' =>
    m.phrase.Inside t.span.first s'.last ∧ MemberStands ts m := by
  refine LocatesAt.framed (f := fun m => m.phrase.span) (.order fun _ _ => .here ?_)
  refine ((locates_visibility s t).spells reads_visibility).bind fun isPrivate vs s₁ t₁ _ _ _ hv =>
    ?_
  refine ((locates_access s₁ t₁).spells reads_access).bind fun isStatic as s₂ t₂ _ _ _ ha => ?_
  refine ((nests_resultType s₂ t₂).spells reads_resultType).bind fun type ts s₃ t₃ _ _ _ htype => ?_
  obtain ⟨-, next, hv⟩ := hv
  obtain ⟨-, next', ha⟩ := ha
  obtain ⟨htype, next'', hspells⟩ := htype
  refine .identifier fun x t₄ hx _ _ => .peek ?_
  have hahead : StandsAhead (vs ++ (as ++ (ts ++ [t₃]))) isPrivate isStatic type x :=
    .mk hv ha hspells hx
  split
  · rename_i heq
    refine .advance heq.1 Symbol.noConfusion fun t₅ _ _ =>
      .passed (.pure ⟨?_, rfl, by simp, fun hframes => ?_⟩)
    · exact .row rfl (.single (htype.mono (by omega) (by omega))) .nil
    · have hstands :=
        MemberStands.field (f := ⟨x, type, t.span.through t₄.span, isPrivate, isStatic⟩) hahead
          heq.1
      simp only [List.append_assoc, List.cons_append, List.nil_append] at hstands
      exact hstands hframes
  · refine (locates_methodRest (htype.mono (by omega) (by omega))).bind fun m us s₅ t₅ _ _ _ hm =>
      .pure ?_
    obtain ⟨hinside, hspan, hrest, rfl, rfl, rfl, rfl⟩ := hm
    refine ⟨hinside, hspan, by simp, fun hframes => ?_⟩
    have hstands := MemberStands.method hahead hrest
    simp only [List.append_assoc, List.cons_append, List.nil_append] at hstands
    rw [List.append_nil] at hframes ⊢
    exact hstands hframes

theorem locates_membersUntilBrace (n : Nat) (s : Span) (t : Token) :
    LocatesAt s t (membersUntilBrace n) fun ts ms s' =>
      Row t.span.first s'.last (ms.map Member.phrase) ∧ ∃ (us : List Token) (r : Token),
      ts = us ++ [r] ∧ MembersStand us ms ∧ r.symbol = .punct .rightBrace := by
  induction n generalizing s t with
  | zero => exact .throw
  | succ n ih =>
    rw [membersUntilBrace]
    refine .order fun _ hproper => .peek ?_
    split
    · rename_i heq
      exact .advance heq Symbol.noConfusion fun _ _ _ => .pure ⟨.nil hproper, [], t, rfl, .nil, heq⟩
    · refine (locates_member s t).bind fun m ts s₁ t₁ _ _ _ hm => ?_
      refine (ih s₁ t₁).bind fun ms ts' s₂ t₂ _ _ _ hms => .pure ?_
      obtain ⟨hrow, us, r, rfl, hstand, hright⟩ := hms
      refine ⟨.cons hm.1 (by omega) hrow, ts ++ us, r, ?_, .cons hm.2 hstand, hright⟩
      rw [List.append_nil, List.append_assoc]

theorem Member.inside_of_phrases {ms : List Member} {lo hi : Int}
    (h : ∀ n ∈ ms.map Member.phrase, n.Inside lo hi) :
    ∀ n ∈ (ms.filterMap Member.field?).map Phrase.field ++ (ms.filterMap Member.method?).map
      Phrase.method,
      n.Inside lo hi := by
  intro n hn
  rcases List.mem_append.mp hn with hn | hn
  · obtain ⟨f, hf, rfl⟩ := List.mem_map.mp hn
    obtain ⟨m, hm, hfield⟩ := List.mem_filterMap.mp hf
    cases m with
    | field f' =>
      cases hfield
      exact h _ (List.mem_map_of_mem hm)
    | method m' => cases hfield
  · obtain ⟨x, hx, rfl⟩ := List.mem_map.mp hn
    obtain ⟨m, hm, hmethod⟩ := List.mem_filterMap.mp hx
    cases m with
    | field f' => cases hmethod
    | method m' =>
      cases hmethod
      exact h _ (List.mem_map_of_mem hm)

theorem locates_classDecl (ht : t.symbol = .keyword .classWord) :
    LocatesAt s t classDecl fun ts c s' =>
      (Phrase.cls c).Inside t.span.first s'.last ∧ ClassStands ts c := by
  refine LocatesAt.framed (f := ClassDecl.span) (.order fun _ _ => .here ?_)
  refine .advance ht Symbol.noConfusion fun t₁ _ hproper => .identifier fun x t₂ hx _ _ =>
    .punct fun t₃ hleft _ _ => ?_
  refine LocatesAt.bind (.bounded fun n => locates_membersUntilBrace n _ t₃)
    fun ms ts s₄ t₄ _ _ _ hms => ?_
  obtain ⟨hrow, us, r, rfl, hstand, hright⟩ := hms
  have hle := hrow.le
  refine .passed (.pure ⟨?_, rfl, List.cons_ne_nil _ _, fun hframes => ?_⟩)
  · refine .whole rfl (by omega) (List.forall_mem_cons.mpr ⟨?_, ?_⟩) .nil
    · exact (Inside.ident hproper).mono (by omega) (by omega)
    · exact Member.inside_of_phrases (hrow.mono (by omega) (Int.le_refl _)).inside
  · rw [List.append_nil] at hframes ⊢
    exact .mk ht hx hleft hstand hright rfl rfl hframes

theorem locates_classes (n : Nat) (s : Span) (t : Token) :
    LocatesAt s t (classes n) fun ts cs s' =>
      (∀ x ∈ cs.map Phrase.cls, x.Inside t.span.first s'.last) ∧ s.last ≤ s'.last ∧
      ClassesStand ts cs := by
  induction n generalizing s t with
  | zero => exact .throw
  | succ n ih =>
    rw [classes]
    refine .order fun _ _ => .peek ?_
    split
    · rename_i heq
      refine (locates_classDecl heq).bind fun c ts s₁ t₁ _ _ _ hc => ?_
      refine (ih s₁ t₁).bind fun cs ts' s₂ t₂ _ _ _ hcs => .pure ?_
      obtain ⟨hinside, hstands⟩ := hc
      obtain ⟨hinsides, hle, hstand⟩ := hcs
      have hle' := hinside.le
      refine ⟨List.forall_mem_cons.mpr ⟨hinside.mono (Int.le_refl _) hle, ?_⟩, by omega, ?_⟩
      · exact fun x hx => (hinsides x hx).mono (by omega) (Int.le_refl _)
      · rw [List.append_nil]
        exact .cons hstands hstand
    · exact .pure ⟨List.forall_mem_nil _, Int.le_refl _, .nil⟩

end Parser

theorem Cursor.Ended.tokens_eq {c : Cursor} (hc : c.Ended) (h : c.current.symbol = .endOfText) :
    c.tokens = [c.current] ∧ c.advance.previous = c.current.span := by
  obtain ⟨body, hbody, hnot⟩ := hc
  obtain ⟨previous, current, upcoming⟩ := c
  cases body with
  | cons s body =>
    obtain ⟨rfl, -⟩ := List.cons.inj hbody
    exact absurd (h ▸ List.mem_cons_self) hnot
  | nil =>
    obtain rfl := List.map_eq_nil_iff.mp (List.cons.inj hbody).2
    exact ⟨rfl, rfl⟩

namespace Scan

variable (source : Bytes)

theorem tokens_line : ∀ t ∈ tokens source, ∃ k : Nat, t.span = .line k := by
  obtain ⟨ts, hsplits⟩ := exists_splits [] source.toChars
  rw [hsplits.tokens_eq]
  refine List.forall_mem_append.mpr ⟨fun t ht => ?_, List.forall_mem_singleton.mpr ⟨_, rfl⟩⟩
  obtain ⟨k, hk, -⟩ := hsplits.lines.1 t ht
  exact ⟨k, hk⟩

theorem tokens_wholeText : WholeText (tokens source) := symbols_ended source

theorem inOrder_start : (Cursor.start (tokens source)).InOrder := by
  have hwhole := tokens_wholeText source
  have hstart := Cursor.tokens_start hwhole.ne_nil
  have hline := tokens_line source
  refine ⟨?_, ?_, ?_, ?_⟩
  · rw [Cursor.Ended, Cursor.symbols_eq_map, hstart]
    exact hwhole
  · rw [hstart]
    intro t ht
    obtain ⟨k, hk⟩ := hline t ht
    rw [hk]
    exact Int.le_refl _
  · rw [hstart]
    refine (tokens_sorted source).imp_of_mem fun {t u} ht _ hle => ?_
    obtain ⟨k, hk⟩ := hline t ht
    rw [hk] at hle ⊢
    exact hle
  · have hcurrent : (Cursor.start (tokens source)).current ∈ tokens source := by
      rw [← hstart]
      exact List.mem_cons_self
    obtain ⟨k, hk⟩ := hline _ hcurrent
    rw [hk]
    cases hts : tokens source with
    | nil => exact absurd hts hwhole.ne_nil
    | cons t ts => exact Int.natCast_nonneg k

end Scan

/-- Every phrase of a program that is read from a source stands on a range of lines that covers its
parts, the statements of a block and the arguments of a call come one after another, and
declarations and statements take the lines from their first token through their last one. -/
theorem Program.lines_nested {source : Bytes} {p : Program} (h : Program.parse source = .ok p) :
    (∀ n : Phrase, n.PartOf (.program p) → n.WellPlaced) ∧
      Grammar.ProgramStands (Scan.tokens source) p := by
  obtain ⟨d, hread⟩ := Program.ofTokens_eq_ok.mp h
  obtain ⟨cs, e, hclasses, hend, -⟩ := Parser.program_eq_ok hread
  rw [Parser.program_of_ok hclasses, if_pos hend] at hread
  cases hread
  have hstart := Scan.inOrder_start source
  -- The end of the text counts as the last token of the program, but reading never gets behind it.
  have hlocates :=
    Parser.LocatesAt.bounded fun n =>
      Parser.locates_classes n (Cursor.start (Scan.tokens source)).previous
    (Cursor.start (Scan.tokens source)).current
  obtain ⟨he, ts, hts, -, hinside, -, hstands⟩ := hlocates _ cs e hstart rfl rfl hclasses
  obtain ⟨htokens, hadvance⟩ := he.ended.tokens_eq hend
  constructor
  · have hproper := he.proper _ List.mem_cons_self
    have hfirst := hstart.le_of_tokens hts
    have hprevious := he.previous
    have hprogram :
        (Phrase.program ⟨cs,
        (Cursor.start (Scan.tokens source)).current.span.through e.advance.previous⟩).Inside
        (Cursor.start (Scan.tokens source)).current.span.first e.current.span.last := by
      rw [hadvance]
      exact .whole rfl (by omega) (fun x hx => (hinside x hx).mono (Int.le_refl _) (by omega)) .nil
    exact fun n hn => (hprogram.nested.of_partOf hn).wellPlaced
  · rw [htokens, Cursor.tokens_start (Scan.tokens_wholeText source).ne_nil] at hts
    rw [hts]
    exact .mk hstands hend

/-- A class with comments and with phrases on several lines. -/
def acrossLines : Bytes :=
  Bytes.ofString ("/* a\n*/ class A \x7b int f(int x,\nint y) \x7b " ++
    "y = (x +\n1) * // twice\n2; return\nx - y; \x7d\n\x7d\n")

theorem acrossLines_nested :
    ∃ p, Program.parse acrossLines = .ok p ∧ p.classes.map (·.span) = [⟨2, 7⟩] ∧
      (p.classes.flatMap (·.methods)).flatMap (fun m => m.body.map (·.span)) = [⟨3, 5⟩, ⟨5, 6⟩] ∧
      (∀ n : Phrase, n.PartOf (.program p) → n.WellPlaced) ∧
      Grammar.ProgramStands (Scan.tokens acrossLines) p := by
  have hlines : (Program.parse acrossLines).toOption.map (fun p => (p.classes.map (·.span),
      (p.classes.flatMap (·.methods)).flatMap fun m => m.body.map (·.span))) = some ([⟨2, 7⟩],
      [⟨3, 5⟩, ⟨5, 6⟩]) := by
    decide +kernel
  cases hp : Program.parse acrossLines with
  | error e =>
    rw [hp] at hlines
    cases hlines
  | ok p =>
    rw [hp] at hlines
    obtain ⟨hclasses, hbody⟩ := Prod.mk.inj (Option.some.inj hlines)
    exact ⟨p, rfl, hclasses, hbody, Program.lines_nested hp⟩

end MiniJava
