import MiniJava.Proofs.Syntax.Complete
/-!
The token sequences that are read are those of the grammar. Where an `else` could belong to several
`if`s, it can always be given to the nearest one.
-/
namespace MiniJava

namespace Grammar

/-- An `else` after an open statement can be given to its last open `if`. -/
theorem SpellsStmt.attach {es : List Symbol} {e : Stmt} (he : SpellsStmt es e)
    (hlast : e.elseNearest = true) :
    ∀ {ts t}, SpellsStmt ts t → t.elseNearest = true → t.isOpen = true →
      ∃ s, SpellsStmt (ts ++ .keyword .elseWord :: es) s ∧ s.elseNearest = true
  | _, _, @SpellsStmt.ifThen cs c ts t hc ht, hnearest, _ => by
    have hlist : .keyword .ifWord :: .punct .leftParen :: (cs ++ .punct .rightParen :: ts) ++
        .keyword .elseWord :: es =
          .keyword .ifWord :: .punct .leftParen ::
            (cs ++ .punct .rightParen :: (ts ++ .keyword .elseWord :: es)) := by simp
    rw [hlist]
    cases hopen : t.isOpen with
    | true =>
      obtain ⟨s, hs, hsnearest⟩ := SpellsStmt.attach he hlast ht hnearest hopen
      exact ⟨.ifThen c s blank, .ifThen hc hs, hsnearest⟩
    | false =>
      refine ⟨.ifElse c t e blank, .ifElse hc ht he, ?_⟩
      have ht : t.elseNearest = true := hnearest
      rw [Stmt.elseNearest, hopen, ht, hlast]
      rfl
  | _, _, @SpellsStmt.ifElse cs c ts t us u hc ht hu, hnearest, hopen => by
    rw [Stmt.elseNearest, Bool.and_eq_true] at hnearest
    obtain ⟨s, hs, hsnearest⟩ := SpellsStmt.attach he hlast hu hnearest.2 hopen
    refine ⟨.ifElse c t s blank, ?_, ?_⟩
    · have hlist :
          .keyword .ifWord :: .punct .leftParen ::
            (cs ++ .punct .rightParen :: (ts ++ .keyword .elseWord :: us)) ++
          .keyword .elseWord :: es = .keyword .ifWord :: .punct .leftParen ::
            (cs ++ .punct .rightParen ::
              (ts ++ .keyword .elseWord :: (us ++ .keyword .elseWord :: es))) := by simp
      rw [hlist]
      exact .ifElse hc ht hs
    · rw [Stmt.elseNearest, hnearest.1, hsnearest]
      rfl
  | _, _, @SpellsStmt.loop cs c bs b hc hb, hnearest, hopen => by
    obtain ⟨s, hs, hsnearest⟩ := SpellsStmt.attach he hlast hb hnearest hopen
    refine ⟨.loop c s blank, ?_, hsnearest⟩
    have hlist : .keyword .whileWord :: .punct .leftParen :: (cs ++ .punct .rightParen :: bs) ++
        .keyword .elseWord :: es =
          .keyword .whileWord :: .punct .leftParen ::
            (cs ++ .punct .rightParen :: (bs ++ .keyword .elseWord :: es)) := by simp
    rw [hlist]
    exact .loop hc hs

mutual

/-- What spells a statement spells one that gives every `else` to the nearest `if`. -/
theorem SpellsStmt.exists_nearest :
    ∀ {ss s}, SpellsStmt ss s → ∃ s', SpellsStmt ss s' ∧ s'.elseNearest = true
  | _, _, .block h => by
    obtain ⟨body, hbody, hnearest⟩ := h.exists_nearest
    exact ⟨_, .block hbody, hnearest⟩
  | _, _, .declare ht he => ⟨_, .declare ht he, rfl⟩
  | _, _, .assign hr he => ⟨_, .assign hr he, rfl⟩
  | _, _, .assignIndex hr hi he => ⟨_, .assignIndex hr hi he, rfl⟩
  | _, _, .call hr hargs => ⟨_, .call hr hargs, rfl⟩
  | _, _, .retVoid => ⟨_, .retVoid, rfl⟩
  | _, _, .ret he => ⟨_, .ret he, rfl⟩
  | _, _, .ifThen hc ht => by
    obtain ⟨t, ht, hnearest⟩ := ht.exists_nearest
    exact ⟨_, .ifThen hc ht, hnearest⟩
  | _, _, .ifElse hc ht he => by
    obtain ⟨t, ht, hnearest⟩ := ht.exists_nearest
    obtain ⟨e, he, hlast⟩ := he.exists_nearest
    cases hopen : t.isOpen with
    | true =>
      obtain ⟨s, hs, hsnearest⟩ := SpellsStmt.attach he hlast ht hnearest hopen
      exact ⟨_, .ifThen hc hs, hsnearest⟩
    | false =>
      refine ⟨_, .ifElse hc ht he, ?_⟩
      rw [Stmt.elseNearest, hopen, hnearest, hlast]
      rfl
  | _, _, .loop hc hb => by
    obtain ⟨b, hb, hnearest⟩ := hb.exists_nearest
    exact ⟨_, .loop hc hb, hnearest⟩

theorem SpellsStmts.exists_nearest : ∀ {ss body}, SpellsStmts ss body →
    ∃ body', SpellsStmts ss body' ∧ Stmt.elsesNearest body' = true
  | _, _, .nil => ⟨[], .nil, rfl⟩
  | _, _, .cons hs hbody => by
    obtain ⟨s, hs, hsnearest⟩ := hs.exists_nearest
    obtain ⟨body, hbody, hnearest⟩ := hbody.exists_nearest
    refine ⟨_, .cons hs hbody, ?_⟩
    rw [Stmt.elsesNearest, hsnearest, hnearest]
    rfl

end

theorem SpellsMembers.exists_nearest {ss : List Symbol} {ms : List Parser.Member}
    (h : SpellsMembers ss ms) :
    ∃ ms', SpellsMembers ss ms' ∧ ∀ m ∈ ms'.filterMap Parser.Member.method?,
      Stmt.elsesNearest m.body = true := by
  induction h with
  | nil => exact ⟨[], .nil, List.forall_mem_nil _⟩
  | cons hm _ ih =>
    obtain ⟨ms, hms, hnearest⟩ := ih
    cases hm with
    | field hv ha ht => exact ⟨_, .cons (.field hv ha ht) hms, hnearest⟩
    | method hv ha ht hparams hbody =>
      obtain ⟨body, hbody, hbodynearest⟩ := hbody.exists_nearest
      exact ⟨_, .cons (.method hv ha ht hparams hbody) hms,
        List.forall_mem_cons.mpr ⟨hbodynearest, hnearest⟩⟩

theorem SpellsProgram.exists_nearest {ss : List Symbol} {p : Program} (h : SpellsProgram ss p) :
    ∃ p', SpellsProgram ss p' ∧ p'.elsesNearest = true := by
  have hclasses {ss : List Symbol} {cs : List ClassDecl} (h : SpellsClasses ss cs) :
      ∃ cs', SpellsClasses ss cs' ∧ ∀ c ∈ cs', ∀ m ∈ c.methods,
        Stmt.elsesNearest m.body = true := by
    induction h with
    | nil => exact ⟨[], .nil, List.forall_mem_nil _⟩
    | cons hc _ ih =>
      obtain ⟨cs, hcs, hnearest⟩ := ih
      cases hc with
      | mk hms =>
        obtain ⟨ms, hms, hmembers⟩ := hms.exists_nearest
        exact ⟨_, .cons (.mk hms) hcs, List.forall_mem_cons.mpr ⟨hmembers, hnearest⟩⟩
  cases h with
  | mk hcs =>
    obtain ⟨cs, hcs, hnearest⟩ := hclasses hcs
    refine ⟨_, .mk hcs, ?_⟩
    simpa [Program.elsesNearest] using hnearest

end Grammar

theorem Stmt.isOpen_shape : ∀ s : Stmt, s.shape.isOpen = s.isOpen
  | .block _ _ | .declare _ _ _ | .assign _ _ _ | .assignIndex _ _ _ _ | .call _ _ _ |
      .ifThen _ _ _ => rfl
  | .ret e _ => by cases e <;> rfl
  | .ifElse _ _ e _ => e.isOpen_shape
  | .loop _ body _ => body.isOpen_shape

mutual

theorem Stmt.elseNearest_shape : ∀ s : Stmt, s.shape.elseNearest = s.elseNearest
  | .block body _ => Stmt.elsesNearest_shapes body
  | .declare _ _ _ | .assign _ _ _ | .assignIndex _ _ _ _ | .call _ _ _ | .ret none _ |
      .ret (some _) _ => rfl
  | .ifThen _ t _ => t.elseNearest_shape
  | .ifElse _ t e _ => by
    rw [Stmt.shape, Stmt.elseNearest, Stmt.elseNearest, t.isOpen_shape, t.elseNearest_shape,
      e.elseNearest_shape]
  | .loop _ body _ => body.elseNearest_shape

theorem Stmt.elsesNearest_shapes :
    ∀ ss : List Stmt, Stmt.elsesNearest (Stmt.shapes ss) = Stmt.elsesNearest ss
  | [] => rfl
  | s :: ss => by
    rw [Stmt.shapes, Stmt.elsesNearest, Stmt.elsesNearest, s.elseNearest_shape,
      Stmt.elsesNearest_shapes ss]

end

theorem Program.elsesNearest_shape (p : Program) : p.shape.elsesNearest = p.elsesNearest := by
  simp [Program.elsesNearest, Program.shape, ClassDecl.shape, Method.shape,
    Stmt.elsesNearest_shapes, Function.comp_def]

/-- A token sequence is read if and only if it is a program of the grammar. What is read is, places
aside, the one program that the sequence spells with every operator in its tier and every `else` at
the nearest `if`. -/
theorem Program.ofTokens_iff_spells {ts : List Token} {body : List Symbol}
    (hts : ts.map (·.symbol) = body ++ [.endOfText]) (hbody : .endOfText ∉ body) :
    ((∃ p, Program.ofTokens ts = .ok p) ↔ ∃ t, Grammar.SpellsProgram body t) ∧
      ∀ t, (∃ p, Program.ofTokens ts = .ok p ∧ p.shape = t) ↔
        Grammar.SpellsProgram body t ∧ t.elsesNearest = true := by
  constructor
  · constructor
    · rintro ⟨p, hp⟩
      exact ⟨p.shape, (Program.spells_of_ofTokens hts hbody hp).1⟩
    · rintro ⟨t, ht⟩
      obtain ⟨t', ht', hnearest⟩ := ht.exists_nearest
      obtain ⟨p, hp, -⟩ := Program.ofTokens_of_spells hts ht' hnearest
      exact ⟨p, hp⟩
  · intro t
    constructor
    · rintro ⟨p, hp, rfl⟩
      obtain ⟨hspells, hnearest⟩ := Program.spells_of_ofTokens hts hbody hp
      exact ⟨hspells, p.elsesNearest_shape.trans hnearest⟩
    · rintro ⟨ht, hnearest⟩
      exact Program.ofTokens_of_spells hts ht hnearest

/-- `class A { int f() { if (true) if (false) return 1; else return 2 + 3 * 4; } }` -/
def danglingElse : List Symbol :=
  [.keyword .classWord, .identifier "A", .punct .leftBrace, .keyword .intWord, .identifier "f",
    .punct .leftParen,
    .punct .rightParen, .punct .leftBrace, .keyword .ifWord, .punct .leftParen, .keyword .trueWord,
    .punct .rightParen,
    .keyword .ifWord, .punct .leftParen, .keyword .falseWord, .punct .rightParen,
    .keyword .returnWord, .integer "1",
    .punct .semicolon, .keyword .elseWord, .keyword .returnWord, .integer "2", .binary .add,
    .integer "3", .binary .mul,
    .integer "4", .punct .semicolon, .punct .rightBrace, .punct .rightBrace]

/-- The `else` belongs to the second `if`, and the product is an operand of the sum. -/
theorem danglingElse_spelled :
    let num (digits : String) : Expr := .literal (.int digits) blank
    let sum := Expr.binary .add blank (num "2") (.binary .mul blank (num "3") (num "4"))
    let body : Stmt := .ifThen (.literal (.bool true) blank)
      (.ifElse (.literal (.bool false) blank) (.ret (some (num "1")) blank) (.ret (some sum) blank)
        blank) blank
    let t : Program :=
      ⟨[⟨⟨"A", blank⟩, blank, [], [⟨⟨"f", .int blank, blank, false, false, []⟩, [body]⟩]⟩], blank⟩
    (∃ p, Program.ofTokens ((danglingElse ++ [Symbol.endOfText]).map (⟨·, .line 1⟩)) = .ok p ∧
      p.shape = t) ∧
      Grammar.SpellsProgram danglingElse t ∧ t.elsesNearest = true := by
  intro num sum body t
  have hread : ∃ p, Program.ofTokens ((danglingElse ++ [Symbol.endOfText]).map (⟨·, .line 1⟩)) =
      .ok p ∧ p.shape = t :=
    ⟨_, rfl, by with_unfolding_all rfl⟩
  exact ⟨hread, ((Program.ofTokens_iff_spells rfl (by decide)).2 t).mp hread⟩

end MiniJava
