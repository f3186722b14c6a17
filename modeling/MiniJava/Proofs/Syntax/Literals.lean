import MiniJava.Proofs.Syntax.Declarations
/-!
The literals of a program. The grammar has no number that is not an `int`, and resolution keeps all
literals.
-/
namespace MiniJava

mutual

def Expr.literals : Expr → List Literal
  | .unary _ _ e => e.literals
  | .binary _ _ l r => l.literals ++ r.literals
  | .ref _ => []
  | .index _ i _ => i.literals
  | .call _ args _ => Expr.literalsOf args
  | .literal l _ => [l]
  | .newObject _ _ => []
  | .newArray _ size _ => size.literals

def Expr.literalsOf : List Expr → List Literal
  | [] => []
  | e :: es => e.literals ++ Expr.literalsOf es

end

mutual

def Stmt.literals : Stmt → List Literal
  | .block body _ => Stmt.literalsOf body
  | .declare _ init _ => init.literals
  | .assign _ value _ => value.literals
  | .assignIndex _ i value _ => i.literals ++ value.literals
  | .call _ args _ => Expr.literalsOf args
  | .ret none _ => []
  | .ret (some value) _ => value.literals
  | .ifThen cond t _ => cond.literals ++ t.literals
  | .ifElse cond t e _ => cond.literals ++ t.literals ++ e.literals
  | .loop cond body _ => cond.literals ++ body.literals

def Stmt.literalsOf : List Stmt → List Literal
  | [] => []
  | s :: ss => s.literals ++ Stmt.literalsOf ss

end

/-- The literals of all methods. -/
def Program.literals (p : Program) : List Literal :=
  p.classes.flatMap fun c => c.methods.flatMap fun m => Stmt.literalsOf m.body

namespace Grammar

/-- Literals whose value is an `int`. -/
def AllFit (ls : List Literal) : Prop := ∀ l ∈ ls, l.value ≤ Parser.maxLiteral

theorem allFit_nil : AllFit [] := List.forall_mem_nil _

theorem AllFit.append {ls ls' : List Literal} (h : AllFit ls)
    (h' : AllFit ls') : AllFit (ls ++ ls') :=
  List.forall_mem_append.mpr ⟨h, h'⟩

theorem allFit_singleton {l : Literal} (h : l.value ≤ Parser.maxLiteral) : AllFit [l] :=
  List.forall_mem_singleton.mpr h

mutual

theorem SpellsExpr.allFit : ∀ {t ss e}, SpellsExpr t ss e → AllFit e.literals
  | _, _, _, .operand h => h.allFit
  | _, _, _, .tighter h => h.allFit
  | _, _, _, .binary _ hl hr => hl.allFit.append hr.allFit

theorem SpellsOperand.allFit : ∀ {ss e}, SpellsOperand ss e → AllFit e.literals
  | _, _, .ref _ => allFit_nil
  | _, _, .index _ hi => hi.allFit
  | _, _, .call _ hargs => hargs.allFit
  | _, _, .not h => h.allFit
  | _, _, .neg h => h.allFit
  | _, _, .paren h => h.allFit
  | _, _, .num h => allFit_singleton h
  | _, _, .trueWord => allFit_singleton (by decide)
  | _, _, .falseWord => allFit_singleton (by decide)
  | _, _, .nullWord => allFit_singleton (by decide)
  | _, _, .newObject => allFit_nil
  | _, _, .newIntArray h => h.allFit
  | _, _, .newClsArray h => h.allFit

theorem SpellsArgs.allFit : ∀ {ss es}, SpellsArgs ss es → AllFit (Expr.literalsOf es)
  | _, _, .nil => allFit_nil
  | _, _, .list h => h.allFit

theorem SpellsExprs.allFit : ∀ {ss es}, SpellsExprs ss es → AllFit (Expr.literalsOf es)
  | _, _, .single h => h.allFit.append allFit_nil
  | _, _, .cons h hs => h.allFit.append hs.allFit

end

mutual

theorem SpellsStmt.allFit : ∀ {ss s}, SpellsStmt ss s → AllFit s.literals
  | _, _, .block h => h.allFit
  | _, _, .declare _ h => h.allFit
  | _, _, .assign _ h => h.allFit
  | _, _, .assignIndex _ hi h => hi.allFit.append h.allFit
  | _, _, .call _ h => h.allFit
  | _, _, .retVoid => allFit_nil
  | _, _, .ret h => h.allFit
  | _, _, .ifThen hc ht => hc.allFit.append ht.allFit
  | _, _, .ifElse hc ht he => (hc.allFit.append ht.allFit).append he.allFit
  | _, _, .loop hc hb => hc.allFit.append hb.allFit

theorem SpellsStmts.allFit : ∀ {ss body}, SpellsStmts ss body → AllFit (Stmt.literalsOf body)
  | _, _, .nil => allFit_nil
  | _, _, .cons h hs => h.allFit.append hs.allFit

end

theorem SpellsMembers.allFit {ss : List Symbol} {ms : List Parser.Member}
    (h : SpellsMembers ss ms) :
    ∀ m ∈ ms, ∀ x, m.method? = some x → AllFit (Stmt.literalsOf x.body) := by
  induction h with
  | nil => exact List.forall_mem_nil _
  | cons hm _ ih =>
    refine List.forall_mem_cons.mpr ⟨fun x hx => ?_, ih⟩
    cases hm with
    | field => cases hx
    | method _ _ _ _ hbody =>
      cases hx
      exact hbody.allFit

theorem SpellsClasses.allFit {ss : List Symbol} {cs : List ClassDecl} (h : SpellsClasses ss cs) :
    ∀ c ∈ cs, ∀ m ∈ c.methods, AllFit (Stmt.literalsOf m.body) := by
  induction h with
  | nil => exact List.forall_mem_nil _
  | cons hc _ ih =>
    refine List.forall_mem_cons.mpr ⟨fun x hx => ?_, ih⟩
    cases hc with
    | mk hms =>
      obtain ⟨m, hm, hx⟩ := List.mem_filterMap.mp hx
      exact hms.allFit m hm x hx

end Grammar

mutual

theorem Expr.literals_shape : ∀ e : Expr, e.shape.literals = e.literals
  | .unary _ _ e => e.literals_shape
  | .binary _ _ l r =>
    by rw [Expr.shape, Expr.literals, Expr.literals, l.literals_shape, r.literals_shape]
  | .ref _ => rfl
  | .index _ i _ => i.literals_shape
  | .call _ args _ => Expr.literalsOf_shapes args
  | .literal _ _ => rfl
  | .newObject _ _ => rfl
  | .newArray _ size _ => size.literals_shape

theorem Expr.literalsOf_shapes :
    ∀ es : List Expr, Expr.literalsOf (Expr.shapes es) = Expr.literalsOf es
  | [] => rfl
  | e :: es =>
    by rw [Expr.shapes, Expr.literalsOf, Expr.literalsOf, e.literals_shape,
      Expr.literalsOf_shapes es]

end

mutual

theorem Stmt.literals_shape : ∀ s : Stmt, s.shape.literals = s.literals
  | .block body _ => Stmt.literalsOf_shapes body
  | .declare _ init _ => init.literals_shape
  | .assign _ value _ => value.literals_shape
  | .assignIndex _ i value _ =>
    by rw [Stmt.shape, Stmt.literals, Stmt.literals, i.literals_shape, value.literals_shape]
  | .call _ args _ => Expr.literalsOf_shapes args
  | .ret none _ => rfl
  | .ret (some value) _ => value.literals_shape
  | .ifThen c t _ =>
    by rw [Stmt.shape, Stmt.literals, Stmt.literals, c.literals_shape, t.literals_shape]
  | .ifElse c t e _ => by
    rw [Stmt.shape, Stmt.literals, Stmt.literals, c.literals_shape, t.literals_shape,
      e.literals_shape]
  | .loop c body _ =>
    by rw [Stmt.shape, Stmt.literals, Stmt.literals, c.literals_shape, body.literals_shape]

theorem Stmt.literalsOf_shapes :
    ∀ ss : List Stmt, Stmt.literalsOf (Stmt.shapes ss) = Stmt.literalsOf ss
  | [] => rfl
  | s :: ss =>
    by rw [Stmt.shapes, Stmt.literalsOf, Stmt.literalsOf, s.literals_shape,
      Stmt.literalsOf_shapes ss]

end

mutual

theorem Expr.literals_unbound : ∀ e : Expr, e.unbound.literals = e.literals
  | .unary _ _ e => e.literals_unbound
  | .binary _ _ l r =>
    by rw [Expr.unbound, Expr.literals, Expr.literals, l.literals_unbound, r.literals_unbound]
  | .ref _ => rfl
  | .index _ i _ => i.literals_unbound
  | .call _ args _ => Expr.literalsOf_unboundAll args
  | .literal _ _ => rfl
  | .newObject _ _ => rfl
  | .newArray _ size _ => size.literals_unbound

theorem Expr.literalsOf_unboundAll :
    ∀ es : List Expr, Expr.literalsOf (Expr.unboundAll es) = Expr.literalsOf es
  | [] => rfl
  | e :: es => by
    rw [Expr.unboundAll, Expr.literalsOf, Expr.literalsOf, e.literals_unbound,
      Expr.literalsOf_unboundAll es]

end

mutual

theorem Stmt.literals_unbound : ∀ s : Stmt, s.unbound.literals = s.literals
  | .block body _ => Stmt.literalsOf_unboundAll body
  | .declare _ init _ => init.literals_unbound
  | .assign _ value _ => value.literals_unbound
  | .assignIndex _ i value _ => by
    rw [Stmt.unbound, Stmt.literals, Stmt.literals, i.literals_unbound, value.literals_unbound]
  | .call _ args _ => Expr.literalsOf_unboundAll args
  | .ret none _ => rfl
  | .ret (some value) _ => value.literals_unbound
  | .ifThen c t _ =>
    by rw [Stmt.unbound, Stmt.literals, Stmt.literals, c.literals_unbound, t.literals_unbound]
  | .ifElse c t e _ => by
    rw [Stmt.unbound, Stmt.literals, Stmt.literals, c.literals_unbound, t.literals_unbound,
      e.literals_unbound]
  | .loop c body _ =>
    by rw [Stmt.unbound, Stmt.literals, Stmt.literals, c.literals_unbound, body.literals_unbound]

theorem Stmt.literalsOf_unboundAll :
    ∀ ss : List Stmt, Stmt.literalsOf (Stmt.unboundAll ss) = Stmt.literalsOf ss
  | [] => rfl
  | s :: ss => by
    rw [Stmt.unboundAll, Stmt.literalsOf, Stmt.literalsOf, s.literals_unbound,
      Stmt.literalsOf_unboundAll ss]

end

namespace Program

theorem literals_unbound (p : Program) : p.unbound.literals = p.literals := by
  simp only [literals, unbound, List.flatMap_map, ClassDecl.unbound, Method.unbound,
    Stmt.literalsOf_unboundAll]

theorem literals_of_parse {source : Bytes} {p : Program}
    (h : parse source = .ok p) : Grammar.AllFit p.literals := by
  obtain ⟨body, hbody, hnot⟩ := Scan.symbols_ended source
  obtain ⟨hspells, -⟩ := spells_of_ofTokens hbody hnot h
  intro l hl
  obtain ⟨c, hc, hl⟩ := List.mem_flatMap.mp hl
  obtain ⟨m, hm, hl⟩ := List.mem_flatMap.mp hl
  cases hspells with
  | mk hclasses =>
    have hfit := hclasses.allFit c.shape (List.mem_map_of_mem hc) m.shape (List.mem_map_of_mem hm)
    rw [Method.shape, Stmt.literalsOf_shapes] at hfit
    exact hfit l hl

theorem literals_of_resolve {source : Bytes} {p q : Program} (hp : parse source = .ok p)
    (h : p.resolve = .ok q) : Grammar.AllFit q.literals := by
  rw [← q.literals_unbound, (resolve_eq_ok h).1, p.literals_unbound]
  exact literals_of_parse hp

end Program

end MiniJava
