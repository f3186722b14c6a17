import MiniJava.Scope.Resolve
import MiniJava.Proofs.Scope.History
/-!
How resolution uses the scopes. Reading a statement opens and closes scopes like a balanced sequence
of operations, so that only a declaration changes them, and a declaration that is refused is
reported as the one that was to be entered.
-/
namespace MiniJava

/-- The statement is a declaration. -/
def Stmt.declares : Stmt → Bool
  | .declare _ _ _ => true
  | _ => false

namespace Resolve

variable {α β : Type}

/-- The state that a step leaves, whether it succeeds or not. -/
def after : EStateM.Result NamingError State α → State
  | .ok _ s => s
  | .error _ s => s

def KeepsScopes (step : Body α) : Prop := ∀ s, (after (step s)).scopes = s.scopes

/-- All scopes but the innermost are kept. -/
def KeepsOuter (step : Body α) : Prop :=
  ∀ s, (after (step s)).scopes.levels.tail = s.scopes.levels.tail ∧
  (after (step s)).scopes.declaring = s.scopes.declaring

theorem KeepsScopes.outer {step : Body α} (h : KeepsScopes step) : KeepsOuter step := by
  intro s
  rw [h s]
  exact ⟨rfl, rfl⟩

theorem after_bind (step : Body α) (next : α → Body β) (s : State) :
    after ((step >>= next) s) = after (step s) ∨
      ∃ a, after ((step >>= next) s) = after (next a (after (step s))) := by
  change after (EStateM.bind step next s) = _ ∨ ∃ a, after (EStateM.bind step next s) = _
  unfold EStateM.bind
  cases step s with
  | ok a t => exact .inr ⟨a, rfl⟩
  | error e t => exact .inl rfl

theorem KeepsScopes.bind {step : Body α} {next : α → Body β} (hstep : KeepsScopes step)
    (hnext : ∀ a, KeepsScopes (next a)) : KeepsScopes (step >>= next) := by
  intro s
  rcases after_bind step next s with heq | ⟨a, heq⟩
  · rw [heq, hstep]
  · rw [heq, hnext, hstep]

theorem KeepsOuter.bind {step : Body α} {next : α → Body β} (hstep : KeepsOuter step)
    (hnext : ∀ a, KeepsOuter (next a)) : KeepsOuter (step >>= next) := by
  intro s
  rcases after_bind step next s with heq | ⟨a, heq⟩
  · rw [heq]
    exact hstep s
  · rw [heq]
    exact ⟨(hnext a _).1.trans (hstep s).1, (hnext a _).2.trans (hstep s).2⟩

theorem keepsScopes_pure (a : α) : KeepsScopes (pure a) := fun _ => rfl

theorem keepsScopes_reading
    (f : Scopes Meaning → Except NamingError α) : KeepsScopes (reading f) := by
  intro s
  unfold reading
  cases f s.scopes <;> rfl

theorem State.scopes_leave {s t : State} (hlevels : t.scopes.levels.tail = s.scopes.levels)
    (hdeclaring : t.scopes.declaring = s.scopes.declaring) : t.leave.scopes = s.scopes := by
  change Scopes.mk t.scopes.levels.tail t.scopes.declaring = s.scopes
  rw [hlevels, hdeclaring]

theorem KeepsOuter.inScope {step : Body α} (h : KeepsOuter step) : KeepsScopes (inScope step) := by
  intro s
  obtain ⟨hlevels, hdeclaring⟩ := h { s with scopes := s.scopes.openScope }
  have hleave :
      after (Resolve.inScope step s) =
        (after (step { s with scopes := s.scopes.openScope })).leave := by
    unfold Resolve.inScope
    cases step { s with scopes := s.scopes.openScope } <;> rfl
  rw [hleave]
  exact State.scopes_leave hlevels hdeclaring

theorem keepsOuter_declareLocal (ctx : Context)
    (v : Variable) : KeepsOuter (declareLocal ctx v) := by
  rintro ⟨⟨levels, declaring⟩, locals⟩
  cases levels with
  | nil => exact ⟨rfl, rfl⟩
  | cons inner outer =>
    unfold declareLocal
    simp only [Scopes.enter]
    by_cases htaken : Scopes.isTaken ⟨inner :: outer, declaring⟩ v.name = true
    · simp only [htaken, if_true]
      exact ⟨rfl, rfl⟩
    · simp only [htaken]
      exact ⟨rfl, rfl⟩

section Statements

variable (ctx : Context)

/-- A statement changes the innermost scope at most, and only a declaration does. -/
def Reads (declares : Bool) (step : Body α) : Prop :=
  KeepsOuter step ∧ (declares = false → KeepsScopes step)

theorem KeepsScopes.reads {step : Body α} (h : KeepsScopes step)
    {declares : Bool} : Reads declares step :=
  ⟨h.outer, fun _ => h⟩

mutual

theorem reads_stmt : ∀ s : Stmt, Reads s.declares (stmt ctx s)
  | .block body _ => ((reads_stmts body).inScope.bind fun _ => keepsScopes_pure _).reads
  | .declare v _ _ => by
    refine ⟨?_, fun h => Bool.noConfusion h⟩
    apply (keepsScopes_reading _).outer.bind
    intro _
    apply (keepsOuter_declareLocal ctx v).bind
    intro _
    exact ((keepsScopes_reading _).bind fun _ => keepsScopes_pure _).outer
  | .assign _ _ _ | .call _ _ _ =>
    ((keepsScopes_reading _).bind fun _ => (keepsScopes_reading _).bind fun _ =>
      keepsScopes_pure _).reads
  | .assignIndex _ _ _ _ =>
    ((keepsScopes_reading _).bind fun _ => (keepsScopes_reading _).bind fun _ =>
      (keepsScopes_reading _).bind fun _ =>
      keepsScopes_pure _).reads
  | .ret none _ => (keepsScopes_pure _).reads
  | .ret (some _) _ => ((keepsScopes_reading _).bind fun _ => keepsScopes_pure _).reads
  | .ifThen _ t _ =>
    ((keepsScopes_reading _).bind fun _ => (reads_stmt t).1.inScope.bind fun _ =>
      keepsScopes_pure _).reads
  | .ifElse _ t e _ =>
    ((keepsScopes_reading _).bind fun _ => (reads_stmt t).1.inScope.bind fun _ =>
      (reads_stmt e).1.inScope.bind fun _ =>
      keepsScopes_pure _).reads
  | .loop _ body _ =>
    ((keepsScopes_reading _).bind fun _ => (reads_stmt body).1.inScope.bind fun _ =>
      keepsScopes_pure _).reads

theorem reads_stmts : ∀ ss : List Stmt, KeepsOuter (stmts ctx ss)
  | [] => (keepsScopes_pure _).outer
  | s :: ss =>
    (reads_stmt s).1.bind fun _ => (reads_stmts ss).bind fun _ => (keepsScopes_pure _).outer

end

end Statements

/-- Where a name is refused, the declaration that was to be entered is reported as the duplicate,
and no other. -/
structure ReportsOwn (scopes : Scopes Meaning) : Prop where
  cls : ∀ i c cs, scopes.enter c.name (.cls c.name) = .ok none →
    ∃ e, enterClasses i (c :: cs) scopes = .error e ∧ e.duplicate = some (.cls i)
  member : ∀ owner site span d ds, scopes.enter d.name d = .ok none →
    ∃ e, enterMembers owner ((site, span, d) :: ds) scopes = .error e ∧ e.duplicate = some site
  param : ∀ (ctx : Context) i v vs, type ctx.classes v.type = .ok () →
    scopes.enter v.name (.param i v) = .ok none →
    ∃ e, params ctx i (v :: vs) scopes = .error e ∧
      e.duplicate = some (.param ctx.classIndex ctx.methodIndex i)
  localVar : ∀ (ctx : Context) n v, scopes.enter v.name (.localVar n v) = .ok none →
    ∃ e, declareLocal ctx v ⟨scopes, n⟩ = .error e ⟨scopes, n⟩ ∧
      e.duplicate = some (.localVar ctx.classIndex ctx.methodIndex n)

theorem reportsOwn (scopes : Scopes Meaning) : ReportsOwn scopes where
  cls i c cs h := by
    rw [enterClasses, h]
    exact ⟨_, rfl, rfl⟩
  member owner site span d ds h := by
    rw [enterMembers, h]
    exact ⟨_, rfl, rfl⟩
  param ctx i v vs htype h := by
    simp only [params, htype, h, bind, Except.bind]
    exact ⟨_, rfl, rfl⟩
  localVar ctx n v h := by
    rw [declareLocal, h]
    exact ⟨_, rfl, rfl⟩

end Resolve

open Resolve ScopeTable in
/-- The laws of the scope table, after every history of opened and closed scopes and declarations.
No name stands at two levels of locals. A declaration is refused exactly if its name stands at the
current level or, among locals, at another level of locals; then it alone is flagged and no scope
changes. What is found for a name is the latest declaration whose scope is still open. What happens
between the opening of a scope and its closing leaves the other scopes as they were. So does the
reading of every statement but a declaration, whether it succeeds or not. -/
theorem scopes_follow_history {δ : Type} {ops : List (ScopeOp δ)} {t : ScopeTable δ}
    (h : new.run ops = some t) :
    (∀ name i j, 2 ≤ i → 2 ≤ j → (t.scopes.findAt? i name).isSome →
      (t.scopes.findAt? j name).isSome → i = j) ∧
    (∀ name d, (t.scopes.enter name d = .ok none ↔ t.scopes.Clashes name) ∧
      (t.scopes.Clashes name → t.step (.enter name d) = some { t with flagged := d :: t.flagged }) ∧
      (¬ t.scopes.Clashes name → ∃ inner outer, t.scopes.levels = inner :: outer ∧
        t.step (.enter name d) =
          some { t with scopes := { t.scopes with levels := ((name, d) :: inner) :: outer } })) ∧
    (∀ name d, t.scopes.find? name = some d ↔ Latest ops name d) ∧
    (∀ body, Balanced body →
      ∃ flagged, t.run (.openScope :: (body ++ [.closeScope])) = some { t with flagged }) ∧
    (∀ scopes, ReportsOwn scopes) ∧ ∀ ctx s, s.declares = false → KeepsScopes (stmt ctx s) := by
  refine ⟨?_, ?_, ?_, ?_, reportsOwn, ?_⟩
  · intro name i j hi hj hfind hfind'
    exact level_unique h hi hj hfind hfind'
  · exact step_enter h
  · intro name d
    exact find?_eq_some_iff_latest h
  · intro body hbody
    exact run_nested h hbody
  · intro ctx s hs
    exact (reads_stmt ctx s).2 hs

/-- Parameters `x` and `y`, a block with a local `z` and a second `x`, which is refused, and after
it another `z`. The class `z` is hidden. -/
def usesTwice : List (ScopeOp Nat) :=
  [.enter "z" 0, .openScope, .openScope, .enter "x" 1, .enter "y" 2, .openScope, .enter "z" 3,
    .enter "x" 4, .closeScope,
    .enter "z" 5]

/-- The block is gone, and the second `x` is flagged. -/
def usedTwice : ScopeTable Nat :=
  ⟨⟨[[("z", 5), ("y", 2), ("x", 1)], [], [("z", 0)]], none⟩, [4]⟩

/-- The second local `z` is the latest one, for the first was in a block that has been closed. -/
theorem usesTwice_follows :
    ScopeTable.new.run usesTwice = some usedTwice ∧ ScopeTable.Latest usesTwice "z" 5 ∧
      usedTwice.step (.enter "x" 6) = some { usedTwice with flagged := [6, 4] } ∧
      (∃ flagged, usedTwice.run [.openScope, .enter "x" 6, .closeScope] =
        some { usedTwice with flagged }) ∧
      ∀ ctx span, Resolve.KeepsScopes (Resolve.stmt ctx (.block [] span)) := by
  have hrun : ScopeTable.new.run usesTwice = some usedTwice := by rfl
  obtain ⟨-, henter, hfind, hnested, -, hread⟩ := scopes_follow_history hrun
  have hclash : usedTwice.scopes.Clashes "x" := ⟨2, by decide, .inl rfl⟩
  refine ⟨hrun, (hfind "z" 5).mp rfl, (henter "x" 6).2.1 hclash, hnested _ (.enter "x" 6 .nil), ?_⟩
  intro ctx span
  exact hread ctx (.block [] span) rfl

end MiniJava
