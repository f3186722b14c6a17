import MiniJava.Proofs.Syntax.Sound
/-!
How far reading looks ahead. A token that is an error fits no phrase, so no reader goes past it. Two
token sequences with the same symbols up to some symbol are read alike up to that symbol, whatever
comes after it: a reader that stops at a symbol of the common part stops in both, with outcomes that
differ in their lines at most.
-/
namespace MiniJava

/-- A symbol that stands in phrases. -/
def Symbol.isProper : Symbol → Bool
  | endOfText => false
  | error _ => false
  | _ => true

theorem Symbol.isError_of_isProper {s : Symbol} (h : s.isProper = true) : s.isError = false := by
  cases s with
  | error => cases h
  | _ => rfl

namespace Cursor

/-- The tokens from the one at hand on. -/
def tokens (c : Cursor) : List Token := c.current :: c.upcoming

theorem tokens_start {ts : List Token} (h : ts ≠ []) : (start ts).tokens = ts := by
  cases ts with
  | nil => exact absurd rfl h
  | cons t ts => rfl

/-- No token between the place `c` and the place `d` behind it is an error. -/
def Leads (c d : Cursor) : Prop :=
  ∃ between, c.tokens = between ++ d.tokens ∧ ∀ t ∈ between, t.symbol.isError = false

variable {c d e : Cursor}

theorem Leads.refl (c : Cursor) : c.Leads c := ⟨[], rfl, nofun⟩

theorem Leads.trans (hcd : c.Leads d) (hde : d.Leads e) : c.Leads e := by
  obtain ⟨ts, hc, hts⟩ := hcd
  obtain ⟨us, hd, hus⟩ := hde
  refine ⟨ts ++ us, ?_, ?_⟩
  · rw [hc, hd, List.append_assoc]
  · intro t ht
    rcases List.mem_append.mp ht with ht | ht
    · exact hts t ht
    · exact hus t ht

theorem leads_advance (h : c.current.symbol.isError = false) : c.Leads c.advance := by
  rcases c with ⟨previous, current, upcoming⟩
  cases upcoming with
  | nil => exact .refl _
  | cons t ts => exact ⟨[current], rfl, List.forall_mem_singleton.mpr h⟩

theorem Leads.length_le (h : c.Leads d) : d.symbols.length ≤ c.symbols.length := by
  obtain ⟨between, htokens, -⟩ := h
  have hlength := congrArg List.length htokens
  simp only [tokens, List.length_cons, List.length_append] at hlength
  simp only [symbols, List.length_cons, List.length_map]
  omega

end Cursor

/-- Two ways to go on after a common symbol. If nothing follows in the first, the symbol is the end
of the text. -/
structure Fork where
  last : Symbol
  first : List Symbol
  second : List Symbol
  ended : first = [] → last = .endOfText

namespace Fork

/-- No fork: the sequences are the same to their end. -/
def none : Fork := ⟨.endOfText, [], [], fun _ => rfl⟩

variable {w : Fork} {c c' : Cursor}

/-- Two places with the same symbols before them up to the fork. -/
def Shared (w : Fork) (c c' : Cursor) : Prop :=
  ∃ ss, c.symbols = ss ++ w.last :: w.first ∧ c'.symbols = ss ++ w.last :: w.second

/-- The place is not behind the fork. -/
def Reaches (w : Fork) (c : Cursor) : Prop := w.first.length < c.symbols.length

theorem Shared.current (h : w.Shared c c') : c'.current.symbol = c.current.symbol := by
  obtain ⟨ss, hc, hc'⟩ := h
  cases ss with
  | nil => exact (List.cons.inj hc').1.trans (List.cons.inj hc).1.symm
  | cons s ss => exact (List.cons.inj hc').1.trans (List.cons.inj hc).1.symm

theorem Shared.advance (h : w.Shared c c') (hs : c.current.symbol ≠ .endOfText)
    (hreach : w.Reaches c.advance) : w.Shared c.advance c'.advance := by
  obtain ⟨ss, hc, hc'⟩ := h
  cases ss with
  | nil =>
    have hlast : c.current.symbol = w.last := (List.cons.inj hc).1
    have hfirst : w.first ≠ [] := fun hnil => hs (hlast.trans (w.ended hnil))
    unfold Reaches at hreach
    rw [Cursor.symbols_advance hc hfirst] at hreach
    exact absurd hreach (Nat.lt_irrefl _)
  | cons s ss =>
    refine ⟨ss, ?_, ?_⟩
    · exact Cursor.symbols_advance hc (List.append_ne_nil_of_right_ne_nil _ (List.cons_ne_nil _ _))
    · exact Cursor.symbols_advance hc' (List.append_ne_nil_of_right_ne_nil _ (List.cons_ne_nil _ _))

theorem Reaches.of_leads (hreach : w.Reaches c') (h : c.Leads c') : w.Reaches c :=
  Nat.lt_of_lt_of_le hreach h.length_le

variable {α γ : Type} {f : α → γ}

/-- Two runs that end at the same place, with outcomes in which the same is seen or with the same
fault. A run that fails at its bound says nothing. -/
def Agree (w : Fork) (f : α → γ) :
    EStateM.Result SyntaxFault Cursor α → EStateM.Result SyntaxFault Cursor α → Prop
  | .ok a d, .ok a' d' => w.Shared d d' ∧ f a = f a'
  | .error e d, .error e' d' => e = .tooDeep ∨ e' = .tooDeep ∨ w.Shared d d' ∧ e = e'
  | .ok _ _, .error e' _ => e' = .tooDeep
  | .error e _, .ok _ _ => e = .tooDeep

theorem agree_tooDeep_left {d : Cursor} {r : EStateM.Result SyntaxFault Cursor α} :
    w.Agree f (.error .tooDeep d) r := by
  cases r with
  | ok a d' => rfl
  | error e d' => exact .inl rfl

theorem agree_tooDeep_right {d : Cursor} {r : EStateM.Result SyntaxFault Cursor α} :
    w.Agree f r (.error .tooDeep d) := by
  cases r with
  | ok a d' => rfl
  | error e d' => exact .inr (.inl rfl)

end Fork

namespace Parser

/-- The place where reading ends. -/
def place {α : Type} : EStateM.Result SyntaxFault Cursor α → Cursor
  | .ok _ c => c
  | .error _ c => c

variable {α β γ δ : Type} {w : Fork} {s : Symbol} {f : α → γ} {g : β → δ}

/-- The reader `p` passes no error. From two places that share the symbols up to a fork, `q` does
what `p` does, if `p` ends before the fork. -/
structure Twins (w : Fork) (s : Symbol) (f : α → γ) (p q : Parser α) : Prop where
  leads : ∀ c : Cursor, c.current.symbol = s → c.Leads (place (p c))
  agree : ∀ c c', c.current.symbol = s → w.Shared c c' → w.Reaches (place (p c)) →
    w.Agree f (p c) (q c')

namespace Twins

theorem pure {a a' : α} (h : f a = f a') : Twins w s f (Pure.pure a) (Pure.pure a') :=
  ⟨fun c _ => .refl c, fun _ _ _ hshared _ => ⟨hshared, h⟩⟩

theorem throw {e : SyntaxFault} : Twins w s f (throw e) (throw e) :=
  ⟨fun c _ => .refl c, fun _ _ _ hshared _ => .inr (.inr ⟨hshared, rfl⟩)⟩

theorem tooDeep {q : Parser α} : Twins w s f (MonadExcept.throw .tooDeep) q :=
  ⟨fun c _ => .refl c, fun _ _ _ _ _ => Fork.agree_tooDeep_left⟩

/-- A reader whose bound is a number, next to one that reads. -/
theorem depth {p : Parser α} {q : Nat → Parser α} (hzero : q 0 = MonadExcept.throw .tooDeep)
    (h : ∀ m, Twins w s f p (q (m + 1))) (m : Nat) : Twins w s f p (q m) := by
  cases m with
  | zero =>
    refine ⟨(h 0).leads, fun c c' _ _ _ => ?_⟩
    rw [hzero]
    exact Fork.agree_tooDeep_right
  | succ m => exact h m

theorem bind {p q : Parser α} {k k' : α → Parser β} (hp : Twins w s f p q)
    (hk : ∀ a a' u, f a = f a' → Twins w u g (k a) (k' a')) : Twins w s g (p >>= k) (q >>= k') := by
  have hnext (a : α) (d : Cursor) : d.Leads (place (k a d)) :=
    (hk a a d.current.symbol rfl).leads d rfl
  refine ⟨fun c hs => ?_, fun c c' hs hshared hreach => ?_⟩
  · have hfirst := hp.leads c hs
    cases hrun : p c with
    | ok a d =>
      rw [hrun] at hfirst
      rw [EStateM.bind_of_ok hrun]
      exact hfirst.trans (hnext a d)
    | error e d =>
      rw [hrun] at hfirst
      rw [EStateM.bind_of_error hrun]
      exact hfirst
  · have hagree := hp.agree c c' hs hshared
    cases hrun : p c with
    | ok a d =>
      rw [EStateM.bind_of_ok hrun] at hreach ⊢
      rw [hrun] at hagree
      -- reading goes on from `d`, so that `d` is before the fork too
      have hd := hagree (hreach.of_leads (hnext a d))
      cases hrun' : q c' with
      | ok a' d' =>
        rw [hrun'] at hd
        rw [EStateM.bind_of_ok hrun']
        exact (hk a a' _ hd.2).agree d d' rfl hd.1 hreach
      | error e' d' =>
        rw [hrun'] at hd
        obtain rfl : e' = .tooDeep := hd
        rw [EStateM.bind_of_error hrun']
        exact Fork.agree_tooDeep_right
    | error e d =>
      rw [EStateM.bind_of_error hrun] at hreach ⊢
      rw [hrun] at hagree
      have hd := hagree hreach
      cases hrun' : q c' with
      | ok a' d' =>
        rw [hrun'] at hd
        obtain rfl : e = .tooDeep := hd
        exact Fork.agree_tooDeep_left
      | error e' d' =>
        rw [hrun'] at hd
        rw [EStateM.bind_of_error hrun']
        exact hd

theorem peek {k k' : Symbol → Parser α} (h : Twins w s f (k s) (k' s)) :
    Twins w s f (Parser.peek >>= k) (Parser.peek >>= k') := by
  refine ⟨fun c hs => ?_, fun c c' hs hshared hreach => ?_⟩
  · subst hs
    exact h.leads c rfl
  · subst hs
    change w.Agree f (k c.current.symbol c) (k' c'.current.symbol c')
    rw [hshared.current]
    exact h.agree c c' rfl hshared hreach

theorem here {k k' : Span → Parser α} (h : ∀ span span', Twins w s f (k span) (k' span')) :
    Twins w s f (Parser.here >>= k) (Parser.here >>= k') :=
  ⟨fun c => (h c.current.span c.current.span).leads c,
    fun c c' => (h c.current.span c'.current.span).agree c c'⟩

theorem passed {k k' : Span → Parser α} (h : ∀ span span', Twins w s f (k span) (k' span')) :
    Twins w s f (Parser.passed >>= k) (Parser.passed >>= k') :=
  ⟨fun c => (h c.previous c.previous).leads c, fun c c' => (h c.previous c'.previous).agree c c'⟩

theorem bounded {p q : Nat → Parser α} (h : ∀ n m, Twins w s f (p n) (q m)) :
    Twins w s f (Parser.bounded p) (Parser.bounded q) :=
  ⟨fun c => (h c.depthBound c.depthBound).leads c,
    fun c c' => (h c.depthBound c'.depthBound).agree c c'⟩

theorem advance {k k' : Unit → Parser α} (hs : s.isProper = true)
    (h : ∀ u, Twins w u f (k ()) (k' ())) :
    Twins w s f (Parser.advance >>= k) (Parser.advance >>= k') := by
  have hnext (c : Cursor) : c.advance.Leads (place (k () c.advance)) :=
    (h c.advance.current.symbol).leads c.advance rfl
  refine ⟨fun c hc => ?_, fun c c' hc hshared hreach => ?_⟩
  · subst hc
    exact (Cursor.leads_advance (Symbol.isError_of_isProper hs)).trans (hnext c)
  · subst hc
    have hend : c.current.symbol ≠ .endOfText := by
      intro hend
      rw [hend] at hs
      cases hs
    exact (h _).agree c.advance c'.advance rfl (hshared.advance hend (hreach.of_leads (hnext c)))
      hreach

theorem expect {x : Symbol} {k k' : Unit → Parser α} (hx : x.isProper = true)
    (h : ∀ u, Twins w u f (k ()) (k' ())) :
    Twins w s f (Parser.expect x >>= k) (Parser.expect x >>= k') := by
  have hexpect : Twins w s id (Parser.expect x) (Parser.expect x) := by
    refine .peek ?_
    split
    · rename_i heq
      subst heq
      have hadvance : Twins w s id (Parser.advance >>= Pure.pure) (Parser.advance >>= Pure.pure) :=
        advance hx fun _ => .pure rfl
      exact hadvance
    · exact .throw
  exact hexpect.bind fun _ _ u _ => h u

theorem punct {x : Punct} {k k' : Unit → Parser α} (h : ∀ u, Twins w u f (k ()) (k' ())) :
    Twins w s f (expectPunct x >>= k) (expectPunct x >>= k') :=
  expect rfl h

theorem identifier {k k' : Ident → Parser α}
    (h : ∀ id id' u, id.shape = id'.shape → Twins w u f (k id) (k' id')) :
    Twins w s f (Parser.identifier >>= k) (Parser.identifier >>= k') := by
  have hid : Twins w s Ident.shape Parser.identifier Parser.identifier := by
    refine .peek ?_
    split
    · exact .here fun _ _ => .advance rfl fun _ => .pure rfl
    · exact .throw
  exact hid.bind h

end Twins

/-! ### Types and references -/

theorem twins_arraySuffix {elem elem' : TypeName} (h : elem.shape = elem'.shape) :
    Twins w s TypeName.shape (arraySuffix elem) (arraySuffix elem') := by
  refine .peek ?_
  split
  · exact .advance rfl fun _ => .punct fun _ => .passed fun _ _ =>
      .pure (by simp only [TypeName.shape, h])
  · exact .pure h

theorem twins_typeName : Twins w s TypeName.shape typeName typeName := by
  refine .peek ?_
  split
  · exact .here fun _ _ => .advance rfl fun _ => .pure rfl
  · exact .here fun _ _ => .advance rfl fun _ => twins_arraySuffix rfl
  · exact .identifier fun _ _ _ hid => twins_arraySuffix (by simp only [TypeName.shape, hid])
  · exact .throw

theorem twins_members (n m : Nat) {r r' : Ref} (hr : r.shape = r'.shape) :
    Twins w s Ref.shape (members n r) (members m r') := by
  induction n generalizing s m r r' with
  | zero => exact .tooDeep
  | succ n ih =>
    refine .depth (q := fun m => members m r') rfl (fun m => .peek ?_) m
    split
    · exact .advance rfl fun _ => .identifier fun _ _ _ hid =>
        ih m (by simp only [Ref.shape, hr, hid])
    · exact .pure hr

theorem twins_reference : Twins w s Ref.shape reference reference := by
  refine .peek ?_
  split
  · exact .here fun _ _ => .advance rfl fun _ => .bounded fun n m => twins_members n m rfl
  · exact .identifier fun _ _ _ hid => .bounded fun n m =>
      twins_members n m (by simp only [Ref.shape, hid])
  · exact .throw

/-! ### Expressions -/

theorem twins_literal (l : Literal) (hs : s.isProper = true) :
    Twins w s Expr.shape (literal l) (literal l) :=
  .here fun _ _ => .advance hs fun _ => .pure rfl

/-- An operator with its right operand, without lines. -/
def operation (x : (BinaryOp × Span) × Expr) : (BinaryOp × Span) × Expr :=
  ((x.1.1, blank), x.2.shape)

theorem shape_tree (first : Expr) (rest : List ((BinaryOp × Span) × Expr)) :
    (Precedence.tree (fun op : BinaryOp × Span => op.1.priority)
      (fun op => .binary op.1 op.2) first rest).shape =
        Precedence.tree (fun op : BinaryOp × Span => op.1.priority)
      (fun op => .binary op.1 op.2) first.shape
        (rest.map operation) := by
  have hgroups : Precedence.Groups (fun op : BinaryOp × Span => op.1.priority)
      (fun op => Expr.binary op.1 op.2) 0 first rest _ := Precedence.tree_eq_iff.mp rfl
  exact (Precedence.tree_eq_iff.mpr
    (hgroups.map (g := fun op : BinaryOp × Span => (op.1, blank)) (f := Expr.shape) (fun _ => rfl)
      fun _ _ _ => rfl)).symm

theorem isProper_of_unaryOp? {op : UnaryOp} (h : unaryOp? s = some op) : s.isProper = true := by
  cases s with
  | endOfText | error => cases h
  | _ => rfl

mutual

theorem twins_expression :
    ∀ n m {s : Symbol}, Twins w s Expr.shape (expressionWithin n) (expressionWithin m)
  | 0, _, _ => .tooDeep
  | n + 1, m, s => by
    refine .depth rfl (fun m => ?_) m
    rw [expressionWithin, expressionWithin]
    refine (twins_operand n m).bind fun _ _ _ hfirst =>
      (twins_operations n m).bind fun _ _ _ hrest => .pure ?_
    rw [shape_tree, shape_tree, hfirst, hrest]

theorem twins_operations : ∀ n m {s : Symbol},
    Twins w s (List.map operation) (operationsWithin n) (operationsWithin m)
  | 0, _, _ => .tooDeep
  | n + 1, m, s => by
    refine .depth rfl (fun m => ?_) m
    rw [operationsWithin, operationsWithin]
    refine .peek ?_
    split
    · refine .here fun _ _ => .advance rfl fun _ => (twins_operand n m).bind fun _ _ _ hterm => ?_
      exact (twins_operations n m).bind fun _ _ _ hrest =>
        .pure (by simp only [List.map_cons, operation, hterm, hrest])
    · exact .pure rfl

theorem twins_operand : ∀ n m {s : Symbol}, Twins w s Expr.shape (operandWithin n) (operandWithin m)
  | 0, _, _ => .tooDeep
  | n + 1, m, s => by
    refine .depth rfl (fun m => ?_) m
    rw [operandWithin, operandWithin]
    refine .peek ?_
    split
    · rename_i hop
      refine .here fun _ _ => .advance (isProper_of_unaryOp? hop) fun _ =>
        (twins_operand n m).bind fun _ _ _ he => ?_
      exact .pure (by simp only [Expr.shape, he])
    · split
      · exact .advance rfl fun _ => (twins_expression n m).bind fun _ _ _ he => .punct fun _ =>
          .pure he
      · split
        · exact .throw
        · exact twins_literal _ rfl
      · exact twins_literal _ rfl
      · exact twins_literal _ rfl
      · exact twins_literal _ rfl
      · exact twins_creation n m
      · exact twins_application n m
      · exact twins_application n m
      · exact .throw

theorem twins_application :
    ∀ n m {s : Symbol}, Twins w s Expr.shape (applicationWithin n) (applicationWithin m)
  | 0, _, _ => .tooDeep
  | n + 1, m, s => by
    refine .depth rfl (fun m => ?_) m
    rw [applicationWithin, applicationWithin]
    refine .here fun _ _ => twins_reference.bind fun _ _ _ hr => .peek ?_
    split
    · refine .advance rfl fun _ => (twins_expression n m).bind fun _ _ _ hi => .punct fun _ => ?_
      exact .passed fun _ _ => .pure (by simp only [Expr.shape, hr, hi])
    · exact (twins_arguments n m).bind fun _ _ _ hargs => .passed fun _ _ =>
        .pure (by simp only [Expr.shape, hr, hargs])
    · exact .pure (by simp only [Expr.shape, hr])

theorem twins_creation :
    ∀ n m, Twins w (.keyword .newWord) Expr.shape (creationWithin n) (creationWithin m)
  | 0, _ => .tooDeep
  | n + 1, m => by
    refine .depth rfl (fun m => ?_) m
    rw [creationWithin, creationWithin]
    refine .here fun start start' => .advance rfl fun _ => .peek ?_
    split
    · exact .here fun _ _ => .advance rfl fun _ => twins_newArray n m start start' rfl
    · refine .identifier fun _ _ _ hid => .peek ?_
      split
      · exact .advance rfl fun _ => .punct fun _ => .passed fun _ _ =>
          .pure (by simp only [Expr.shape, hid])
      · exact twins_newArray n m start start' (by simp only [TypeName.shape, hid])
    · exact .throw

theorem twins_newArray :
    ∀ n m {s : Symbol} (start start' : Span) {elem elem' : TypeName}, elem.shape = elem'.shape →
      Twins w s Expr.shape (newArrayWithin n start elem) (newArrayWithin m start' elem')
  | 0, _, _, _, _, _, _, _ => .tooDeep
  | n + 1, m, s, start, start', elem, elem', helem => by
    refine .depth (q := fun m => newArrayWithin m start' elem') rfl (fun m => ?_) m
    rw [newArrayWithin, newArrayWithin]
    refine .punct fun _ => (twins_expression n m).bind fun _ _ _ hsize => .punct fun _ =>
      .passed fun _ _ => ?_
    exact .pure (by simp only [Expr.shape, helem, hsize])

theorem twins_arguments :
    ∀ n m {s : Symbol}, Twins w s Expr.shapes (argumentsWithin n) (argumentsWithin m)
  | 0, _, _ => .tooDeep
  | n + 1, m, s => by
    refine .depth rfl (fun m => ?_) m
    rw [argumentsWithin, argumentsWithin]
    refine .punct fun _ => .peek ?_
    split
    · exact .advance rfl fun _ => .pure rfl
    · exact (twins_expressions n m).bind fun _ _ _ hes => .punct fun _ => .pure hes

theorem twins_expressions :
    ∀ n m {s : Symbol}, Twins w s Expr.shapes (expressionsWithin n) (expressionsWithin m)
  | 0, _, _ => .tooDeep
  | n + 1, m, s => by
    refine .depth rfl (fun m => ?_) m
    rw [expressionsWithin, expressionsWithin]
    refine (twins_expression n m).bind fun _ _ _ he => .peek ?_
    split
    · refine .advance rfl fun _ => (twins_expressions n m).bind fun _ _ _ hes => ?_
      exact .pure (by simp only [Expr.shapes, he, hes])
    · exact .pure (by simp only [Expr.shapes, he])

end

theorem twins_wholeExpression : Twins w s Expr.shape expression expression :=
  .bounded fun n m => twins_expression n m

theorem twins_condition : Twins w s Expr.shape condition condition :=
  .punct fun _ => twins_wholeExpression.bind fun _ _ _ he => .punct fun _ => .pure he

/-! ### Statements -/

theorem twins_declarationRest {t t' : TypeName} (ht : t.shape = t'.shape) (start start' : Span) :
    Twins w s Stmt.shape (declarationRest t start) (declarationRest t' start') := by
  refine .identifier fun id id' _ hid => .punct fun _ => twins_wholeExpression.bind fun _ _ _ he =>
    .punct fun _ => ?_
  have hname : id.name = id'.name := (Ident.mk.inj hid).1
  exact .passed fun _ _ => .pure (by simp only [Stmt.shape, Variable.shape, hname, ht, he])

theorem twins_indexAssignmentRest {r r' : Ref} (hr : r.shape = r'.shape) (start start' : Span) :
    Twins w s Stmt.shape (indexAssignmentRest r start) (indexAssignmentRest r' start') := by
  refine twins_wholeExpression.bind fun _ _ _ hi => .punct fun _ => .punct fun _ => ?_
  refine twins_wholeExpression.bind fun _ _ _ he => .punct fun _ => .passed fun _ _ => ?_
  exact .pure (by simp only [Stmt.shape, hr, hi, he])

theorem twins_actionRest {r r' : Ref} (hr : r.shape = r'.shape) (start start' : Span) :
    Twins w s Stmt.shape (actionRest r start) (actionRest r' start') := by
  refine .peek ?_
  split
  · refine .advance rfl fun _ => twins_wholeExpression.bind fun _ _ _ he => .punct fun _ =>
      .passed fun _ _ => ?_
    exact .pure (by simp only [Stmt.shape, hr, he])
  · exact .advance rfl fun _ => twins_indexAssignmentRest hr start start'
  · refine Twins.bind (.bounded fun n m => twins_arguments n m) fun _ _ _ hargs => .punct fun _ =>
      .passed fun _ _ => ?_
    exact .pure (by simp only [Stmt.shape, hr, hargs])
  · exact .throw

theorem twins_nameStatement : Twins w s Stmt.shape nameStatement nameStatement := by
  refine .here fun start start' => .identifier fun id id' _ hid => .peek ?_
  have hname : (Ref.name id none).shape = (Ref.name id' none).shape := by simp only [Ref.shape, hid]
  split
  · exact twins_declarationRest (by simp only [TypeName.shape, hid]) start start'
  · refine .advance rfl fun _ => .peek ?_
    split
    · refine .advance rfl fun _ => .passed fun _ _ => ?_
      exact twins_declarationRest (by simp only [TypeName.shape, hid]) start start'
    · exact twins_indexAssignmentRest hname start start'
  · refine Twins.bind (.bounded fun n m => twins_members n m hname) fun _ _ _ hr => ?_
    exact twins_actionRest hr start start'

theorem twins_returnStatement :
    Twins w (.keyword .returnWord) Stmt.shape returnStatement returnStatement := by
  refine .here fun _ _ => .advance rfl fun _ => .peek ?_
  split
  · exact .advance rfl fun _ => .passed fun _ _ => .pure rfl
  · refine twins_wholeExpression.bind fun _ _ _ he => .punct fun _ => .passed fun _ _ => ?_
    exact .pure (by simp only [Stmt.shape, he])

mutual

theorem twins_statement :
    ∀ n m {s : Symbol}, Twins w s Stmt.shape (statementWithin n) (statementWithin m)
  | 0, _, _ => .tooDeep
  | n + 1, m, s => by
    refine .depth rfl (fun m => ?_) m
    rw [statementWithin, statementWithin]
    refine .here fun start start' => .peek ?_
    split
    · refine .advance rfl fun _ => (twins_statements n m).bind fun _ _ _ hss => .passed fun _ _ =>
        ?_
      exact .pure (by simp only [Stmt.shape, hss])
    · exact twins_typeName.bind fun _ _ _ ht => twins_declarationRest ht start start'
    · exact twins_typeName.bind fun _ _ _ ht => twins_declarationRest ht start start'
    · exact twins_nameStatement
    · exact twins_reference.bind fun _ _ _ hr => twins_actionRest hr start start'
    · exact twins_returnStatement
    · refine .advance rfl fun _ => twins_condition.bind fun _ _ _ hc =>
        (twins_statement n m).bind fun _ _ _ ht => .peek ?_
      split
      · refine .advance rfl fun _ => (twins_statement n m).bind fun _ _ _ he => .passed fun _ _ =>
          ?_
        exact .pure (by simp only [Stmt.shape, hc, ht, he])
      · exact .passed fun _ _ => .pure (by simp only [Stmt.shape, hc, ht])
    · refine .advance rfl fun _ => twins_condition.bind fun _ _ _ hc =>
        (twins_statement n m).bind fun _ _ _ hb => ?_
      exact .passed fun _ _ => .pure (by simp only [Stmt.shape, hc, hb])
    · exact .throw

theorem twins_statements :
    ∀ n m {s : Symbol}, Twins w s Stmt.shapes (statementsWithin n) (statementsWithin m)
  | 0, _, _ => .tooDeep
  | n + 1, m, s => by
    refine .depth rfl (fun m => ?_) m
    rw [statementsWithin, statementsWithin]
    refine .peek ?_
    split
    · exact .advance rfl fun _ => .pure rfl
    · refine (twins_statement n m).bind fun _ _ _ hs => (twins_statements n m).bind fun _ _ _ hss =>
        ?_
      exact .pure (by simp only [Stmt.shapes, hs, hss])

end

/-! ### Declarations -/

theorem twins_parameters (n m : Nat) :
    Twins w s (List.map Variable.shape) (parametersWithin n) (parametersWithin m) := by
  induction n generalizing s m with
  | zero => exact .tooDeep
  | succ n ih =>
    refine .depth rfl (fun m => ?_) m
    refine .here fun _ _ => twins_typeName.bind fun _ _ _ ht => .identifier fun id id' _ hid =>
      .peek ?_
    have hname : id.name = id'.name := (Ident.mk.inj hid).1
    split
    · refine .advance rfl fun _ => (ih m).bind fun _ _ _ hvs => ?_
      exact .pure (by simp only [List.map_cons, Variable.shape, hname, ht, hvs])
    · exact .pure (by simp only [List.map_cons, List.map_nil, Variable.shape, hname, ht])

theorem twins_optionalParameters :
    Twins w s (List.map Variable.shape) optionalParameters optionalParameters := by
  refine .peek ?_
  split
  · exact .pure rfl
  · exact .bounded fun n m => twins_parameters n m

theorem twins_visibility : Twins w s id visibility visibility := by
  refine .peek ?_
  split
  · exact .advance rfl fun _ => .pure rfl
  · exact .advance rfl fun _ => .pure rfl
  · exact .pure rfl

theorem twins_access : Twins w s id access access := by
  refine .peek ?_
  split
  · exact .advance rfl fun _ => .pure rfl
  · exact .pure rfl

theorem twins_resultType : Twins w s TypeName.shape resultType resultType := by
  refine .peek ?_
  split
  · exact .here fun _ _ => .advance rfl fun _ => .pure rfl
  · exact twins_typeName

theorem twins_methodRest (start start' : Span) (isPrivate isStatic : Bool) {t t' : TypeName}
    (ht : t.shape = t'.shape) (x : String) :
    Twins w s Method.shape (methodRest start isPrivate isStatic t x)
      (methodRest start' isPrivate isStatic t' x) := by
  refine .punct fun _ => twins_optionalParameters.bind fun _ _ _ hps => .punct fun _ =>
    .punct fun _ => ?_
  refine Twins.bind (.bounded fun n m => twins_statements n m) fun _ _ _ hbody => .passed fun _ _ =>
    ?_
  exact .pure (by simp only [Method.shape, ht, hps, hbody])

theorem twins_member : Twins w s Member.shape member member := by
  refine .here fun start start' => twins_visibility.bind fun isPrivate x _ hv =>
    twins_access.bind fun isStatic y _ ha => ?_
  obtain rfl : isPrivate = x := hv
  obtain rfl : isStatic = y := ha
  refine twins_resultType.bind fun t t' _ ht => .identifier fun id id' _ hid => .peek ?_
  have hty : t.ty = t'.ty := by rw [← t.ty_shape, ht, t'.ty_shape]
  have hname : id.name = id'.name := (Ident.mk.inj hid).1
  rw [hty, hname]
  split
  · rename_i hfield
    obtain ⟨rfl, -⟩ := hfield
    exact .advance rfl fun _ => .passed fun _ _ =>
      .pure (by simp only [Member.shape, Field.shape, ht])
  · exact (twins_methodRest start start' isPrivate isStatic ht _).bind fun _ _ _ hm =>
      .pure (by simp only [Member.shape, hm])

theorem twins_membersUntilBrace (n m : Nat) :
    Twins w s (List.map Member.shape) (membersUntilBrace n) (membersUntilBrace m) := by
  induction n generalizing s m with
  | zero => exact .tooDeep
  | succ n ih =>
    refine .depth rfl (fun m => .peek ?_) m
    split
    · exact .advance rfl fun _ => .pure rfl
    · refine twins_member.bind fun _ _ _ hm => (ih m).bind fun _ _ _ hms => ?_
      exact .pure (by simp only [List.map_cons, hm, hms])

theorem twins_classDecl : Twins w (.keyword .classWord) ClassDecl.shape classDecl classDecl := by
  refine .here fun _ _ => .advance rfl fun _ => .identifier fun _ _ _ hid => .punct fun _ => ?_
  refine Twins.bind (.bounded fun n m => twins_membersUntilBrace n m) fun _ _ _ hms =>
    .passed fun _ _ => ?_
  exact .pure
    (by simp only [ClassDecl.shape, ← filterMap_field?_shape, ← filterMap_method?_shape, hid, hms])

theorem twins_classes (n m : Nat) :
    Twins w s (List.map ClassDecl.shape) (classes n) (classes m) := by
  induction n generalizing s m with
  | zero => exact .tooDeep
  | succ n ih =>
    refine .depth rfl (fun m => .peek ?_) m
    split
    · refine twins_classDecl.bind fun _ _ _ hc => (ih m).bind fun _ _ _ hcs => ?_
      exact .pure (by simp only [List.map_cons, hc, hcs])
    · exact .pure rfl

/-! ### Programs -/

variable {c d : Cursor} {e : SyntaxFault} {cs : List ClassDecl}

theorem program_of_error (h : bounded classes c = .error e d) : program c = .error e d := by
  change (bounded classes >>= _) c = _
  rw [EStateM.bind_of_error h]

theorem program_of_ok (h : bounded classes c = .ok cs d) :
    program c = if d.current.symbol = .endOfText then .ok ⟨cs,
      c.current.span.through d.advance.previous⟩ d.advance else .error (.expected .endOfText)
      d := by
  change (bounded classes >>= _) c = _
  rw [EStateM.bind_of_ok h]
  change ((if d.current.symbol = .endOfText then Parser.advance else throw _ : Parser Unit) >>= _)
    d = _
  split <;> rfl

theorem program_eq_ok {p : Program} (h : program c = .ok p d) :
    ∃ cs e, bounded classes c = .ok cs e ∧ e.current.symbol = .endOfText ∧ d = e.advance := by
  cases hrun : bounded classes c with
  | error f e =>
    rw [program_of_error hrun] at h
    cases h
  | ok cs e =>
    rw [program_of_ok hrun] at h
    split at h
    · cases h
      exact ⟨cs, e, rfl, ‹_›, rfl⟩
    · cases h

theorem twins_wholeClasses :
    Twins w s (List.map ClassDecl.shape) (bounded classes) (bounded classes) :=
  .bounded fun n m => twins_classes n m

theorem leads_classes (c : Cursor) : c.Leads (place (bounded classes c)) :=
  (twins_wholeClasses (w := .none)).leads c rfl

/-- Reading ends, well or not, before the first error. -/
theorem leads_program (c : Cursor) : c.Leads (place (program c)) := by
  have hleads := leads_classes c
  cases hrun : bounded classes c with
  | error e d =>
    rw [hrun] at hleads
    rw [program_of_error hrun]
    exact hleads
  | ok cs d =>
    rw [hrun] at hleads
    rw [program_of_ok hrun]
    split
    · rename_i hend
      exact hleads.trans (Cursor.leads_advance (hend ▸ rfl))
    · exact hleads

end Parser

end MiniJava
