import MiniJava.Proofs.Syntax.Declarations
/-!
Resolved programs follow the scoping rules. They are bound, since the rules pick one of the
declarations that can be seen.
-/
namespace MiniJava

namespace Setting

variable {E : Setting} {blocks : Blocks} {vars : List Local}

/-- The locals of the blocks are among those that can be seen. -/
def Covers (blocks : Blocks) (vars : List Local) : Prop := ∀ block ∈ blocks, ∀ x ∈ block, x ∈ vars

theorem Covers.open (h : Covers blocks vars) : Covers ([] :: blocks) vars :=
  List.forall_mem_cons.mpr ⟨List.forall_mem_nil _, h⟩

theorem Covers.declare (h : Covers blocks vars) (x : Local) :
    Covers (blocks.declare x) (vars ++ [x]) := by
  have hx : x ∈ vars ++ [x] := List.mem_append_right _ List.mem_cons_self
  cases blocks with
  | nil => exact List.forall_mem_singleton.mpr (List.forall_mem_singleton.mpr hx)
  | cons block blocks =>
    obtain ⟨hblock, hblocks⟩ := List.forall_mem_cons.mp h
    refine List.forall_mem_cons.mpr ⟨List.forall_mem_cons.mpr ⟨hx, ?_⟩, ?_⟩
    · intro y hy
      exact List.mem_append_left _ (hblock y hy)
    · intro block hblock y hy
      exact List.mem_append_left _ (hblocks block hblock y hy)

theorem Covers.around (h : Covers blocks vars) (k : Nat) (v : Variable) :
    Covers (v.blocksAround k blocks) (v.seenByInit k vars) := by
  unfold Variable.blocksAround Variable.seenByInit
  split
  · exact h.declare (k, v)
  · exact h

theorem Covers.after (h : Covers blocks vars) (k : Nat) (s : Stmt) :
    Covers (s.blocksAfter k blocks) (s.seen k vars) := by
  cases s with
  | declare v init span => exact h.declare (k, v)
  | block | assign | assignIndex | call | ret | ifThen | ifElse | loop => exact h

/-- A reference that follows the rules denotes a class only if it is `this` or the name of the
class. -/
theorem RefScoped.isValue {q : Ref} {dq d : Meaning} {c : String} (hq : E.RefScoped blocks q dq)
    (hkind : dq.kind ≠ .method) (hty : dq.ty = .cls c)
    (hinstance : ∀ qid, q = .name qid (some (.cls c)) → d.isInstance = false)
    (hd : d.isInstance = true) : q.isValue = true := by
  cases hq with
  | this hstatic => rfl
  | @name id dq hbare _ =>
    cases dq with
    | cls c' =>
      obtain rfl : c' = c := Ty.cls.inj hty
      rw [hinstance id rfl] at hd
      cases hd
    | method => exact absurd rfl hkind
    | field | param | localVar | length => rfl
  | length _ _ _ _ => rfl
  | member _ _ _ hmember _ _ =>
    rcases member?_cases hmember with ⟨f, -, rfl⟩ | ⟨m, -, rfl⟩
    · rfl
    · exact absurd rfl hkind

theorem RefScoped.binds (hc : Covers blocks vars) {r : Ref} {d : Meaning}
    (h : E.RefScoped blocks r d) : E.Binds vars r d := by
  induction h with
  | this hstatic => exact .this hstatic
  | name hbare hstatic =>
    rcases bare?_cases hbare with ⟨block, hblock, x, hx, rfl⟩ | ⟨i, v, hv, rfl⟩ | hmember |
      ⟨hcls, rfl⟩
    · exact .localVar (hc block hblock x hx)
    · exact .param hv
    · rcases member?_cases hmember with ⟨f, hf, rfl⟩ | ⟨m, hm, rfl⟩
      · refine .field hf fun hf' => ?_
        by_contra hne
        simpa [Meaning.isInstance, hf'] using hstatic (by simpa using hne)
      · refine .method hm fun hm' => ?_
        by_contra hne
        simpa [Meaning.isInstance, hm'] using hstatic (by simpa using hne)
    · exact .cls hcls
  | length _ hkind hty hname ih => exact .length ih hkind hty
  | member hq hkind hty hmember _ hinstance ih =>
    have hvalue := hq.isValue hkind hty hinstance
    rcases member?_cases hmember with ⟨f, hf, rfl⟩ | ⟨m, hm, rfl⟩
    · exact .memberField ih hkind hty hf fun hf' => hvalue (by simp [Meaning.isInstance, hf'])
    · exact .memberMethod ih hkind hty hm fun hm' => hvalue (by simp [Meaning.isInstance, hm'])

theorem CallScoped.bound (hc : Covers blocks vars) {r : Ref}
    (h : E.CallScoped blocks r) : E.CallBound vars r := by
  cases h with
  | @bare id owner m hmember hstatic =>
    rcases member?_cases hmember with ⟨f, -, hd⟩ | ⟨m', hm', hd⟩
    · cases hd
    · cases hd
      refine ⟨E.owner, m, .method hm' fun hm => ?_⟩
      by_contra hne
      rw [hstatic (by simpa using hne)] at hm
      cases hm
  | member h => exact ⟨_, _, h.binds hc⟩

mutual

theorem ExprScoped.bound (hc : Covers blocks vars) :
    ∀ {e : Expr}, E.ExprScoped blocks e → E.ExprBound vars e
  | .unary _ _ e, h => ExprScoped.bound (e := e) hc h
  | .binary _ _ _ _, h => ⟨ExprScoped.bound hc h.1, ExprScoped.bound hc h.2⟩
  | .ref _, ⟨d, h⟩ => ⟨d, h.binds hc⟩
  | .index _ _ _, ⟨⟨d, h⟩, hi⟩ => ⟨⟨d, h.binds hc⟩, ExprScoped.bound hc hi⟩
  | .call _ _ _, h => ⟨h.1.bound hc, ExprsScoped.bound hc h.2⟩
  | .literal _ _, _ => trivial
  | .newObject _ _, h => h
  | .newArray _ size _, h => ExprScoped.bound (e := size) hc h.2

theorem ExprsScoped.bound (hc : Covers blocks vars) :
    ∀ {es : List Expr}, E.ExprsScoped blocks es → E.ExprsBound vars es
  | [], _ => trivial
  | _ :: _, h => ⟨ExprScoped.bound hc h.1, ExprsScoped.bound hc h.2⟩

end

mutual

theorem StmtScoped.bound :
    ∀ {s : Stmt} {k : Nat} {blocks : Blocks} {vars : List Local}, Covers blocks vars →
      E.StmtScoped k blocks s → E.StmtBound k vars s
  | .block _ _, _, _, _, hc, h => StmtsScoped.bound hc.open h
  | .declare _ _ _, _, _, _, hc, h => ExprScoped.bound (hc.around _ _) h.value
  | .assign _ _ _, _, _, _, hc, ⟨⟨d, h⟩, hv⟩ => ⟨⟨d, h.binds hc⟩, hv.bound hc⟩
  | .assignIndex _ _ _ _, _, _, _, hc, ⟨⟨d, h⟩, hi, hv⟩ =>
    ⟨⟨d, h.binds hc⟩, hi.bound hc, hv.bound hc⟩
  | .call _ _ _, _, _, _, hc, h => ⟨h.1.bound hc, h.2.bound hc⟩
  | .ret none _, _, _, _, _, _ => trivial
  | .ret (some _) _, _, _, _, hc, h => ExprScoped.bound hc h
  | .ifThen _ _ _, _, _, _, hc, h => ⟨h.1.bound hc, StmtScoped.bound hc.open h.2⟩
  | .ifElse _ _ _ _, _, _, _, hc, h =>
    ⟨h.1.bound hc, StmtScoped.bound hc.open h.2.1, StmtScoped.bound hc.open h.2.2⟩
  | .loop _ _ _, _, _, _, hc, h => ⟨h.1.bound hc, StmtScoped.bound hc.open h.2⟩

theorem StmtsScoped.bound :
    ∀ {ss : List Stmt} {k : Nat} {blocks : Blocks} {vars : List Local}, Covers blocks vars →
      E.StmtsScoped k blocks ss → E.StmtsBound k vars ss
  | [], _, _, _, _, _ => trivial
  | s :: _, k, _, _, hc, h => ⟨StmtScoped.bound hc h.1, StmtsScoped.bound (hc.after k s) h.2⟩

end

end Setting

theorem Program.Scoped.bound {p : Program} (h : p.Scoped) : p.Bound := by
  refine ⟨h.classNames, h.memberNames, fun c hc m hm => ?_⟩
  have hbody := (h.methods c hc m hm).body
  exact hbody.bound (List.forall_mem_singleton.mpr (List.forall_mem_nil _))

theorem Program.bound_of_resolve {p q : Program} (h : p.resolve = .ok q) : q.Bound :=
  (Program.resolve_eq_ok h).2.bound

/-- Resolution keeps the program and gives every reference, qualifiers and call targets included,
the meaning that the scoping rules give it. In a program read from a text every local has a name, so
that no initializer can see the local it belongs to. -/
theorem Program.scoping_of_resolve {p q : Program} (h : p.resolve = .ok q) :
    q.unbound = p.unbound ∧ q.Scoped ∧
      ∀ source, Program.parse source = .ok p →
        ∀ c ∈ q.classes, ∀ m ∈ c.methods, ∀ v ∈ m.locals, v.name ≠ "" := by
  obtain ⟨hsame, hfollows⟩ := Program.resolve_eq_ok h
  refine ⟨hsame, hfollows, ?_⟩
  intro source hsource c hc m hm v hv
  have hadmitted := Program.admitted_of_resolve h (Program.admitted_of_parse hsource) c hc
  exact (hadmitted.locals m hm v hv).named

/-- A method `void set(int y) { { int x = this.x; y = x; } x = y; }` of a class with a field `x`. -/
def fieldShadowing (resolved : Bool) : Program :=
  let at1 : Span := .line 1
  let denotes (d : Meaning) : Option Meaning := if resolved then some d else none
  let field : Field := ⟨"x", .int at1, at1, false, false⟩
  let inner : Variable := ⟨"x", .int at1, at1⟩
  let param : Variable := ⟨"y", .int at1, at1⟩
  let y : Ref := .name ⟨"y", at1⟩ (denotes (.param 0 param))
  let xOf (d : Meaning) : Ref := .name ⟨"x", at1⟩ (denotes d)
  let thisX : Ref :=
    .member (.this at1 (denotes (.cls "Cell"))) ⟨"x", at1⟩ (denotes (.field "Cell" field))
  { classes := [{
      id := ⟨"Cell", at1⟩, span := at1, fields := [field]
      methods := [{
        name := "set", type := .void at1, span := at1, isPrivate := false, isStatic :=
        false, params := [param]
        body := [
          .block [.declare inner (.ref thisX) at1, .assign y (.ref (xOf (.localVar 0 inner))) at1]
          at1,
          .assign (xOf (.field "Cell" field)) (.ref y) at1] }] }]
    span := at1 }

/-- The local hides the field inside its block only. -/
theorem fieldShadowing_scoped :
    (fieldShadowing false).resolve = .ok (fieldShadowing true) ∧ (fieldShadowing true).Scoped := by
  have hresolve : (fieldShadowing false).resolve = .ok (fieldShadowing true) := rfl
  exact ⟨hresolve, (Program.scoping_of_resolve hresolve).2.1⟩

end MiniJava
