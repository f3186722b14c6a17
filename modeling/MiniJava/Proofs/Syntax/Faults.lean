import MiniJava.Proofs.Syntax.Recognized
import MiniJava.Proofs.Syntax.Viable
import MiniJava.Proofs.Syntax.Lookahead
/-!
Where a text stops being a program. Reading that fails stands on the first token that no program can
have there: the tokens before it start a program, and with it they start none.
-/
namespace MiniJava

namespace Grammar

/-! ### No phrase has the end of the text in it -/

theorem SpellsType.ends {ss : List Symbol} {t : TypeName}
    (h : SpellsType ss t) : .endOfText ∉ ss := by
  cases h <;> simp

theorem SpellsRef.ends {ss : List Symbol} {r : Ref} (h : SpellsRef ss r) : .endOfText ∉ ss := by
  induction h with
  | this | name => simp
  | member _ ih => simp [ih]

mutual

theorem SpellsExpr.ends : ∀ {t ss e}, SpellsExpr t ss e → .endOfText ∉ ss
  | _, _, _, .operand h => h.ends
  | _, _, _, .tighter h => h.ends
  | _, _, _, .binary _ hl hr => by simp [hl.ends, hr.ends]

theorem SpellsOperand.ends : ∀ {ss e}, SpellsOperand ss e → .endOfText ∉ ss
  | _, _, .ref hr => hr.ends
  | _, _, .index hr hi => by simp [hr.ends, hi.ends]
  | _, _, .call hr hargs => by simp [hr.ends, hargs.ends]
  | _, _, .not h => by simp [h.ends]
  | _, _, .neg h => by simp [h.ends]
  | _, _, .paren h => by simp [h.ends]
  | _, _, .num _ => by simp
  | _, _, .trueWord | _, _, .falseWord | _, _, .nullWord | _, _, .newObject => by simp
  | _, _, .newIntArray h => by simp [h.ends]
  | _, _, .newClsArray h => by simp [h.ends]

theorem SpellsArgs.ends : ∀ {ss es}, SpellsArgs ss es → .endOfText ∉ ss
  | _, _, .nil => by simp
  | _, _, .list h => by simp [h.ends]

theorem SpellsExprs.ends : ∀ {ss es}, SpellsExprs ss es → .endOfText ∉ ss
  | _, _, .single h => h.ends
  | _, _, .cons h hs => by simp [h.ends, hs.ends]

end

mutual

theorem SpellsStmt.ends : ∀ {ss s}, SpellsStmt ss s → .endOfText ∉ ss
  | _, _, .block h => by simp [h.ends]
  | _, _, .declare ht he => by simp [ht.ends, he.ends]
  | _, _, .assign hr he => by simp [hr.ends, he.ends]
  | _, _, .assignIndex hr hi he => by simp [hr.ends, hi.ends, he.ends]
  | _, _, .call hr hargs => by simp [hr.ends, hargs.ends]
  | _, _, .retVoid => by simp
  | _, _, .ret he => by simp [he.ends]
  | _, _, .ifThen hc ht => by simp [hc.ends, ht.ends]
  | _, _, .ifElse hc ht he => by simp [hc.ends, ht.ends, he.ends]
  | _, _, .loop hc hb => by simp [hc.ends, hb.ends]

theorem SpellsStmts.ends : ∀ {ss body}, SpellsStmts ss body → .endOfText ∉ ss
  | _, _, .nil => by simp
  | _, _, .cons h hs => by simp [h.ends, hs.ends]

end

theorem SpellsParams.ends {ss : List Symbol} {vs : List Variable}
    (h : SpellsParams ss vs) : .endOfText ∉ ss := by
  induction h with
  | single ht => simp [ht.ends]
  | cons ht _ ih => simp [ht.ends, ih]

theorem SpellsMember.ends {ss : List Symbol} {m : Parser.Member}
    (h : SpellsMember ss m) : .endOfText ∉ ss := by
  have hvisibility {vs : List Symbol} {isPrivate : Bool} (hv : SpellsVisibility vs isPrivate) :
      .endOfText ∉ vs := by
    cases hv <;> simp
  have haccess {as : List Symbol} {isStatic : Bool} (ha : SpellsAccess as isStatic) :
      .endOfText ∉ as := by
    cases ha <;> simp
  have hresult {ts : List Symbol} {t : TypeName} (ht : SpellsResult ts t) : .endOfText ∉ ts := by
    cases ht with
    | void => simp
    | type ht => exact ht.ends
  have hparams {ps : List Symbol} {vs : List Variable} (hps : SpellsParamList ps vs) :
      .endOfText ∉ ps := by
    cases hps with
    | nil => simp
    | list hps => simp [hps.ends]
  cases h with
  | field hv ha ht => simp [hvisibility hv, haccess ha, ht.ends]
  | method hv ha ht hps hbody =>
    simp [hvisibility hv, haccess ha, hresult ht, hparams hps, hbody.ends]

theorem SpellsClasses.ends {ss : List Symbol} {cs : List ClassDecl}
    (h : SpellsClasses ss cs) : .endOfText ∉ ss := by
  have hmembers {ss : List Symbol} {ms : List Parser.Member} (h : SpellsMembers ss ms) :
      .endOfText ∉ ss := by
    induction h with
    | nil => simp
    | cons hm _ ih => simp [hm.ends, ih]
  induction h with
  | nil => simp
  | cons hc _ ih =>
    cases hc with
    | mk hms => simp [hmembers hms, ih]

end Grammar

namespace Parser

variable {c d : Cursor} {f : SyntaxFault}

/-- A failure of the whole reading is one in the classes, or that something else follows them. -/
theorem program_eq_error (h : program c = .error f d) : bounded classes c = .error f d ∨
    ∃ cs, bounded classes c = .ok cs d ∧ d.current.symbol ≠ .endOfText := by
  cases hrun : bounded classes c with
  | error f' d' =>
    rw [program_of_error hrun] at h
    cases h
    exact .inl rfl
  | ok cs d' =>
    rw [program_of_ok hrun] at h
    split at h
    · cases h
    · rename_i hend
      cases h
      exact .inr ⟨cs, rfl, hend⟩

/-- What has been read when reading fails starts a program, and reading has not failed for its
bound. -/
theorem started_of_program (hc : c.Ended) (h : program c = .error f d) : f ≠ .tooDeep ∧
    ∃ ss more cs, c.symbols = ss ++ d.symbols ∧ Grammar.SpellsClasses (ss ++ more) cs := by
  rcases program_eq_error h with hclasses | ⟨cs, hclasses, hend⟩
  · have hstops : Stops c.current.symbol c.symbols.length (bounded classes) Grammar.SpellsClasses :=
      .bounded fun n _ hn => stops_classes n (by omega)
    exact hstops.started c f d hc rfl (Nat.le_refl _) hclasses
  · have hreads : ReadsAt c.current.symbol (bounded classes) _ :=
      .bounded fun n => reads_classes n _
    obtain ⟨-, ss, hss, hspells, -⟩ := hreads c cs d hc rfl hclasses
    rw [program_of_ok hclasses, if_neg hend] at h
    cases h
    exact ⟨SyntaxFault.noConfusion, ss, [], _, hss, (List.append_nil ss).symm ▸ hspells⟩

/-- Reading fails on every sequence with the same symbols up to the one where it fails. -/
theorem program_ne_ok_of_shared {w : Fork} {c' : Cursor} (hshared : w.Shared c c')
    (hreach : w.Reaches d) (hf : f ≠ .tooDeep) (h : program c = .error f d) (p : Program)
    (d' : Cursor) : program c' ≠ .ok p d' := by
  intro hok
  have hagree := twins_wholeClasses.agree c c' rfl hshared
  obtain ⟨cs', e, hrun, hend', -⟩ := program_eq_ok hok
  rw [hrun] at hagree
  rcases program_eq_error h with hclasses | ⟨cs, hclasses, hend⟩
  · rw [hclasses] at hagree
    exact hf (hagree hreach)
  · rw [hclasses] at hagree
    have hsame := (hagree hreach).1.current
    exact hend (hsame.symm.trans hend')

end Parser

/-- The tokens of a whole text: the last one is the end of the text, and no other. -/
def WholeText (ts : List Token) : Prop :=
  ∃ body, ts.map (·.symbol) = body ++ [.endOfText] ∧ .endOfText ∉ body

theorem WholeText.ne_nil {ts : List Token} (h : WholeText ts) : ts ≠ [] := by
  rintro rfl
  obtain ⟨body, hbody, -⟩ := h
  exact List.append_ne_nil_of_right_ne_nil body (List.cons_ne_nil _ _) hbody.symm

theorem Program.ofTokens_eq_error {ts : List Token} {f : SyntaxFault} {d : Cursor} :
    Program.ofTokens ts = .error ⟨f, d⟩ ↔ Parser.program (Cursor.start ts) = .error f d := by
  unfold Program.ofTokens
  cases Parser.program (Cursor.start ts) <;> simp

theorem Program.ofTokens_eq_ok {ts : List Token} {p : Program} :
    Program.ofTokens ts = .ok p ↔ ∃ d, Parser.program (Cursor.start ts) = .ok p d := by
  unfold Program.ofTokens
  cases Parser.program (Cursor.start ts) <;> simp

/-- The message is about the token at hand, whoever reports it. -/
theorem SyntaxError.line_message (e : SyntaxError) :
    e.message.line = e.place.current.span.first := by
  unfold SyntaxError.message Cursor.faultMessage Token.message?
  split
  · rename_i m hm
    split at hm
    · cases hm
      rfl
    · cases hm
  · rfl

theorem Program.exists_completion {consumed : List Token} {more : List Symbol} {cs : List ClassDecl}
    (h : Grammar.SpellsClasses (consumed.map (·.symbol) ++ more) cs) :
    ∃ ts p, WholeText (consumed ++ ts) ∧ Program.ofTokens (consumed ++ ts) = .ok p := by
  obtain ⟨t, ht, hnearest⟩ := (Grammar.SpellsProgram.mk h).exists_nearest
  obtain ⟨ts, hts⟩ : ∃ ts : List Token, ts.map (·.symbol) = more ++ [Symbol.endOfText] :=
    ⟨(more ++ [Symbol.endOfText]).map fun s => ⟨s, .line 1⟩, by simp [Function.comp_def]⟩
  have hsymbols : (consumed ++ ts).map (·.symbol) = (consumed.map (·.symbol) ++ more) ++
      [Symbol.endOfText] := by
    rw [List.map_append, hts, List.append_assoc]
  obtain ⟨p, hp, -⟩ := Program.ofTokens_of_spells hsymbols ht hnearest
  exact ⟨ts, p, ⟨_, hsymbols, h.ends⟩, hp⟩

/-- Reading that fails stands on the first token that no program can have there. The tokens before
it start a token sequence that is read; no sequence that is read starts with them and that token;
and the report names its line. -/
theorem Program.ofTokens_fails_at_first_impossible {ts : List Token} {e : SyntaxError}
    (hts : WholeText ts) (h : Program.ofTokens ts = .error e) :
    ∃ consumed, ts = consumed ++ e.place.tokens ∧
      (∃ more p, WholeText (consumed ++ more) ∧ Program.ofTokens (consumed ++ more) = .ok p) ∧
      (∀ ts' p, consumed.map (·.symbol) ++ [e.place.current.symbol] <+: ts'.map (·.symbol) →
        Program.ofTokens ts' ≠ .ok p) ∧
      e.message.line = e.place.current.span.first := by
  obtain ⟨f, d⟩ := e
  have hprogram : Parser.program (Cursor.start ts) = .error f d := Program.ofTokens_eq_error.mp h
  have hstart : (Cursor.start ts).symbols = ts.map (·.symbol) := Cursor.symbols_start hts.ne_nil
  obtain ⟨consumed, htokens, -⟩ := Parser.leads_program (Cursor.start ts)
  rw [Cursor.tokens_start hts.ne_nil, hprogram] at htokens
  obtain ⟨body, hbody, hnot⟩ := hts
  obtain ⟨hf, ss, more, cs, hss, hspells⟩ :=
    Parser.started_of_program ⟨body, hstart.trans hbody, hnot⟩ hprogram
  have hconsumed : (Cursor.start ts).symbols = consumed.map (·.symbol) ++ d.symbols := by
    rw [hstart, htokens, List.map_append]
    rfl
  obtain rfl : consumed.map (·.symbol) = ss := List.append_cancel_right (hconsumed.symm.trans hss)
  refine ⟨consumed, htokens, Program.exists_completion hspells, ?_, SyntaxError.line_message _⟩
  rintro ts' p ⟨second, hsecond⟩ hok
  obtain ⟨d', hok⟩ := Program.ofTokens_eq_ok.mp hok
  have hended : d.upcoming.map (·.symbol) = [] → d.current.symbol = .endOfText := by
    intro hnil
    have hlast := congrArg List.getLast? (hconsumed.symm.trans (hstart.trans hbody))
    rw [Cursor.symbols, hnil] at hlast
    simpa using hlast
  have hstart' : (Cursor.start ts').symbols = consumed.map (·.symbol) ++ d.current.symbol ::
      second := by
    rw [Cursor.symbols_start, ← hsecond, List.append_assoc]
    · rfl
    · rintro rfl
      simp at hsecond
  let w : Fork := ⟨d.current.symbol, d.upcoming.map (·.symbol), second, hended⟩
  have hshared : w.Shared (Cursor.start ts) (Cursor.start ts') := ⟨_, hconsumed, hstart'⟩
  exact Parser.program_ne_ok_of_shared hshared (Nat.lt_succ_self _) hf hprogram p d' hok

/-- `class A { int f() { x = -` and, two lines further down, `; } }`. -/
def missingOperand : List Token :=
  [⟨.keyword .classWord, .line 1⟩, ⟨.identifier "A", .line 1⟩, ⟨.punct .leftBrace, .line 1⟩,
    ⟨.keyword .intWord, .line 2⟩,
    ⟨.identifier "f", .line 2⟩, ⟨.punct .leftParen, .line 2⟩, ⟨.punct .rightParen, .line 2⟩,
    ⟨.punct .leftBrace, .line 2⟩,
    ⟨.identifier "x", .line 3⟩, ⟨.punct .assign, .line 3⟩, ⟨.binary .sub, .line 3⟩,
    ⟨.punct .semicolon, .line 5⟩,
    ⟨.punct .rightBrace, .line 6⟩, ⟨.punct .rightBrace, .line 7⟩, ⟨.endOfText, .line 7⟩]

/-- The sign is still fine, the semicolon after it is not. -/
theorem missingOperand_fails_at_semicolon : WholeText missingOperand ∧
    ∃ e, Program.ofTokens missingOperand = .error e ∧ e.place.tokens = missingOperand.drop 11 ∧
      ∃ consumed, missingOperand = consumed ++ e.place.tokens ∧
        (∃ more p, WholeText (consumed ++ more) ∧ Program.ofTokens (consumed ++ more) = .ok p) ∧
        (∀ ts' p, consumed.map (·.symbol) ++ [e.place.current.symbol] <+: ts'.map (·.symbol) →
          Program.ofTokens ts' ≠ .ok p) ∧
        e.message.line = e.place.current.span.first := by
  have hwhole : WholeText missingOperand :=
    ⟨(missingOperand.map (·.symbol)).dropLast, by decide, by decide⟩
  exact ⟨hwhole, _, rfl, rfl, Program.ofTokens_fails_at_first_impossible hwhole rfl⟩

end MiniJava
