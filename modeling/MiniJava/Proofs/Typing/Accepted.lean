import MiniJava.Proofs.Scope.Bound
import MiniJava.Proofs.Typing.Rules
/-!
Checking a resolved program finds no fault exactly if the typing rules accept the program, and the
table of types then gives every phrase the type that the rules give it.
-/
namespace MiniJava

/-- Checking `c` finds no fault exactly if some value satisfies `P`, which is then the outcome, and
it types the phrases `nodes` as the rules do. -/
structure Checked.Agrees {α : Type} (c : Checked α) (nodes : List Node) (P : α → Prop) : Prop where
  sound : c.errors = [] → P c.value ∧ c.types.map (·.1) = nodes ∧ ∀ x ∈ c.types, x.1.HasTy x.2
  complete : ∀ a, P a → c.errors = [] ∧ c.value = a

namespace Checked

variable {α β : Type} {nodes nodes' : List Node}

namespace Agrees

theorem give {a : α} {P : α → Prop} (h : ∀ b, P b ↔ b = a) : Agrees (pure a) [] P :=
  ⟨fun _ => ⟨(h a).mpr rfl, rfl, by simp [pure]⟩, fun b hb => ⟨rfl, ((h b).mp hb).symm⟩⟩

theorem refuse {c : Checked α} {P : α → Prop} (herrors : c.errors ≠ []) (h : ∀ a, ¬ P a) :
    c.Agrees nodes P :=
  ⟨fun hc => absurd hc herrors, fun a ha => absurd ha (h a)⟩

theorem record (n : Node) {t : Ty} (h : n.HasTy t) : Agrees (Checked.record n t) [n] (· = t) :=
  ⟨fun _ => ⟨rfl, rfl, fun x hx => by cases List.mem_singleton.mp hx; exact h⟩,
    fun _ ht => ⟨rfl, ht.symm⟩⟩

theorem bind {x : Checked α} {f : α → Checked β} {P : α → Prop} {Q : α → β → Prop}
    (hx : x.Agrees nodes P) (hf : ∀ a, P a → (f a).Agrees nodes' (Q a)) :
    (x >>= f).Agrees (nodes ++ nodes') fun b => ∃ a, P a ∧ Q a b where
  sound := by
    intro h
    obtain ⟨hxe, hfe⟩ := List.append_eq_nil_iff.mp h
    obtain ⟨hP, hkeys, htypes⟩ := hx.sound hxe
    obtain ⟨hQ, hkeys', htypes'⟩ := (hf _ hP).sound hfe
    refine ⟨⟨_, hP, hQ⟩, ?_, ?_⟩
    · exact List.map_append.trans (by rw [hkeys, hkeys'])
    · intro y hy
      rcases List.mem_append.mp hy with hy | hy
      · exact htypes y hy
      · exact htypes' y hy
  complete := by
    rintro b ⟨a, ha, hb⟩
    obtain ⟨hxe, rfl⟩ := hx.complete a ha
    obtain ⟨hfe, rfl⟩ := (hf _ ha).complete b hb
    exact ⟨List.append_eq_nil_iff.mpr ⟨hxe, hfe⟩, rfl⟩

theorem congr {c : Checked α} {P Q : α → Prop} (h : c.Agrees nodes P) (hPQ : ∀ a, P a ↔ Q a) :
    c.Agrees nodes Q :=
  ⟨fun he => ⟨(hPQ _).mp (h.sound he).1, (h.sound he).2⟩, fun a ha => h.complete a ((hPQ a).mpr ha)⟩

theorem nodes_eq {c : Checked α} {P : α → Prop} (h : c.Agrees nodes P) (hn : nodes = nodes') :
    c.Agrees nodes' P :=
  hn ▸ h

end Agrees

end Checked

theorem Ty.assignable_iff {t u : Ty} : t.assignable u = true ↔ t.Accepts u := by
  constructor
  · intro h
    rcases Bool.or_eq_true_iff.mp h with h | h
    · cases eq_of_beq h
      exact .same t
    · obtain ⟨ht, hu⟩ := Bool.and_eq_true_iff.mp h
      cases eq_of_beq hu
      exact .null ht
  · intro h
    cases h with
    | same => simp [Ty.assignable]
    | null ht => simp [Ty.assignable, ht]

namespace Check

open Checked

variable {E : Setting} {vars : List Local} {r : Ref}

theorem refTy_eq {d : Meaning} (h : r.meaning = some d) : refTy r = d.ty := by
  rw [refTy, h]
  rfl

theorem agrees_ref {d : Meaning} (h : E.Binds vars r d) : (ref r).Agrees r.nodes (· = d.ty) := by
  have own {r : Ref} {d : Meaning} (h : E.Binds vars r d) :
      (record (.ref r) (refTy r)).Agrees [.ref r] (· = d.ty) := by
    rw [refTy_eq h.meaning_eq]
    exact .record (.ref r) ⟨d, h.meaning_eq, rfl⟩
  induction h with
  | this hs => exact own (.this hs)
  | cls hc => exact own (.cls hc)
  | field hf hs => exact own (.field hf hs)
  | method hm hs => exact own (.method hm hs)
  | param hp => exact own (.param hp)
  | localVar hv => exact own (.localVar hv)
  | length hq hk ht ih =>
    exact (ih.bind fun _ _ => own (.length hq hk ht)).congr fun t => by simp
  | memberField hq hk ht hf hs ih =>
    exact (ih.bind fun _ _ => own (.memberField hq hk ht hf hs)).congr fun t => by simp
  | memberMethod hq hk ht hm hs ih =>
    exact (ih.bind fun _ _ => own (.memberMethod hq hk ht hm hs)).congr fun t => by simp

/-- A check of what a reference denotes, after the reference. -/
theorem agrees_ref_then {P : Ty → Prop} {f : Ty → Checked Ty} {d : Meaning} (h : E.Binds vars r d)
    (hf : (f d.ty).Agrees [] P) : (ref r >>= f).Agrees r.nodes P := by
  have hbind := (agrees_ref h).bind fun t (ht : t = d.ty) => ht ▸ hf
  exact (hbind.congr fun t => by simp).nodes_eq (List.append_nil _)

theorem agrees_valueRef (h : E.RefBound vars r) : (valueRef r).Agrees r.nodes r.ValueTy := by
  obtain ⟨d, hd⟩ := h
  refine agrees_ref_then hd ?_
  cases hd with
  | this | field | param | localVar | length | memberField =>
    exact .give fun t => by simp [Ref.ValueTy, Ref.HasTy, Ref.isValue, Ref.meaning, eq_comm]
  | cls | method | memberMethod =>
    exact .refuse (by simp [wrong, Ref.meaning]) fun t =>
      by simp [Ref.ValueTy, Ref.isValue, Ref.meaning]

theorem agrees_target (h : E.RefBound vars r) : (target r).Agrees r.nodes r.TargetTy := by
  obtain ⟨d, hd⟩ := h
  refine agrees_ref_then hd ?_
  cases hd with
  | field | param | localVar | memberField =>
    exact .give fun t =>
      ⟨fun ⟨d, hd, _, ht⟩ => by cases hd; exact ht.symm, fun h => ⟨_, rfl, rfl, h.symm⟩⟩
  | this | cls | method | length | memberMethod =>
    exact .refuse (by simp [wrong, Ref.meaning]) fun t =>
      by simp [Ref.TargetTy, Meaning.isPlace, Ref.meaning]

theorem agrees_indexed (h : E.RefBound vars r) :
    (indexed r).Agrees r.nodes fun elem => r.ValueTy (.array elem) := by
  have hbind : (indexed r).Agrees (r.nodes ++ []) fun elem =>
      ∃ t, r.ValueTy t ∧ t = .array elem := by
    refine (agrees_valueRef h).bind fun t ht => ?_
    cases t with
    | array elem => exact .give fun b => by simp [eq_comm]
    | error => exact absurd rfl ht.1.ne_error
    | int | boolean | cls | void | null => exact .refuse (by simp [wrong]) fun b hb => by cases hb
  exact (hbind.nodes_eq (List.append_nil _)).congr fun elem => by simp

theorem agrees_store (span : Span) {target source : Ty} (ht : target ≠ .error)
    (hs : source ≠ .error) :
    (store target source span).Agrees [] fun _ => target.Accepts source := by
  unfold store
  split
  · rename_i h
    simp only [ht, hs, false_or, Ty.assignable_iff] at h
    exact .give fun _ => by simp [h]
  · rename_i h
    simp only [ht, hs, false_or, Ty.assignable_iff] at h
    exact .refuse (by simp [report]) fun _ => h

theorem agrees_expect (what : String) (expected : Ty) (span : Span) {found : Ty}
    (hf : found ≠ .error) :
    (expect what expected found span).Agrees [] fun _ => expected = found := by
  unfold expect
  split
  · rename_i h
    simp only [hf, false_or] at h
    exact .give fun _ => by simp [h]
  · rename_i h
    simp only [hf, false_or] at h
    exact .refuse (by simp [report]) fun _ => h

theorem agrees_unary (op : UnaryOp) (span : Span) {t : Ty} (ht : t ≠ .error) :
    (unary op t span).Agrees [] fun result => op.HasTy t ∧ result = t := by
  have hop : op.HasTy t ↔ t = unaryTy op := by
    constructor
    · intro h
      cases h <;> rfl
    · rintro rfl
      cases op with
      | not => exact .not
      | neg => exact .neg
  rw [unary, if_neg ht]
  split
  · rename_i h
    exact .give fun b => ⟨fun hb => hb.2.trans h, fun hb => ⟨hop.mpr h, hb.trans h.symm⟩⟩
  · rename_i h
    exact .refuse (by simp [wrong]) fun b hb => h (hop.mp hb.1)

/-- Operands can be compared for equality if the types accept one another. -/
theorem comparable_iff {l r : Ty} :
    comparable l r = true ↔ l ≠ .void ∧ r ≠ .void ∧ (l.Accepts r ∨ r.Accepts l) := by
  simp [comparable, and_assoc, Ty.assignable_iff]

theorem hasTy_equality_iff {op : BinaryOp} {l r t : Ty} (hop : op = .eq ∨ op = .ne) :
    op.HasTy l r t ↔ comparable l r = true ∧ t = .boolean := by
  rw [comparable_iff]
  constructor
  · intro h
    cases h with
    | arithmetic h | order h | logic h => rcases hop with rfl | rfl <;> simp at h
    | equality _ hv => exact ⟨⟨hv, hv, .inl (.same _)⟩, rfl⟩
    | nullRight _ hr =>
      refine ⟨⟨?_, nofun, .inl (.null hr)⟩, rfl⟩
      rintro rfl
      cases hr
    | nullLeft _ hr =>
      refine ⟨⟨nofun, ?_, .inr (.null hr)⟩, rfl⟩
      rintro rfl
      cases hr
  · rintro ⟨⟨hl, hr, h | h⟩, rfl⟩
    all_goals
      have hop : op ∈ [BinaryOp.eq, BinaryOp.ne] := by simpa using hop
    · cases h with
      | same => exact .equality hop hl
      | null href => exact .nullRight hop href
    · cases h with
      | same => exact .equality hop hl
      | null href => exact .nullLeft hop href

/-- An operator that is no comparison for equality has fixed types. -/
theorem hasTy_fixed_iff {op : BinaryOp} {operand result l r t : Ty}
    (h : binaryTy? op = some (operand, result)) :
    op.HasTy l r t ↔ (l = operand ∧ r = operand) ∧ t = result := by
  constructor
  · intro ht
    cases op <;> cases h <;> cases ht <;> simp_all
  · rintro ⟨⟨rfl, rfl⟩, rfl⟩
    cases op with
    | or | and => cases h; exact .logic (by simp)
    | add | sub | mul | div => cases h; exact .arithmetic (by simp)
    | lt | le | gt | ge => cases h; exact .order (by simp)
    | eq | ne => cases h

theorem agrees_binary (op : BinaryOp) (span : Span) {l r : Ty} (hl : l ≠ .error) (hr : r ≠ .error) :
    (binary op l r span).Agrees [] (op.HasTy l r) := by
  rw [binary, if_neg (by simp [hl, hr])]
  cases hop : binaryTy? op with
  | some types =>
    obtain ⟨operand, result⟩ := types
    dsimp only
    split
    · rename_i h
      exact .give fun b => by simp [hasTy_fixed_iff hop, h]
    · rename_i h
      exact .refuse (by simp [wrong]) fun b hb => h ((hasTy_fixed_iff hop).mp hb).1
  | none =>
    have heq : op = .eq ∨ op = .ne := by cases op <;> simp_all [binaryTy?]
    dsimp only
    split
    · rename_i h
      exact .give fun b => by simp [hasTy_equality_iff heq, h]
    · rename_i h
      exact .refuse (by simp [wrong]) fun b hb => h ((hasTy_equality_iff heq).mp hb).1

theorem agrees_arguments {m : Signature} {i : Nat} {vs : List Variable} {typed : List (Expr × Ty)}
    (htyped : ∀ x ∈ typed, x.1.HasTy x.2) (hlen : typed.length = vs.length) :
    (arguments m i vs typed).Agrees [] fun t =>
      Expr.ArgsFit (typed.map (·.1)) vs ∧ t = m.type.ty := by
  induction typed generalizing i vs with
  | nil =>
    cases List.length_eq_zero_iff.mp hlen.symm
    exact .give fun t => by simp [Expr.ArgsFit.nil]
  | cons x typed ih =>
    obtain ⟨e, t⟩ := x
    obtain ⟨he, htyped⟩ := List.forall_mem_cons.mp htyped
    obtain ⟨v, vs, rfl⟩ := List.exists_cons_of_length_eq_add_one hlen.symm
    rw [arguments, if_neg he.ne_error]
    split
    · rename_i hv
      refine (ih htyped (Nat.succ.inj hlen)).congr fun result => and_congr_left fun _ => ?_
      refine ⟨fun hfit => .cons he (Ty.assignable_iff.mp hv) hfit, fun hfit => ?_⟩
      cases hfit with
      | cons _ _ hfit => exact hfit
    · rename_i hv
      refine .refuse (by simp [wrong]) fun result ⟨hfit, _⟩ => hv ?_
      cases hfit with
      | cons he' hv' _ =>
        cases he'.unique he
        exact Ty.assignable_iff.mpr hv'

theorem length_eq_of_argsFit {es : List Expr} {vs : List Variable} (h : Expr.ArgsFit es vs) :
    es.length = vs.length := by
  induction es generalizing vs with
  | nil => cases h; rfl
  | cons e es ih =>
    cases h with
    | cons _ _ hfit => exact congrArg (· + 1) (ih hfit)

theorem agrees_call (span : Span) {typed : List (Expr × Ty)} {owner : String} {m : Signature}
    (hr : r.meaning = some (.method owner m)) (htyped : ∀ x ∈ typed, x.1.HasTy x.2) :
    (call r typed span).Agrees [] fun t =>
      Expr.ArgsFit (typed.map (·.1)) m.params ∧ t = m.type.ty := by
  simp only [call, hr]
  split
  · rename_i hlen
    exact agrees_arguments htyped hlen
  · rename_i hlen
    refine .refuse (by simp [wrong]) fun t ⟨hfit, _⟩ => hlen ?_
    simpa using length_eq_of_argsFit hfit

/-- The types of some expressions, in order. -/
def Typings (es : List Expr) (typed : List (Expr × Ty)) : Prop :=
  typed.map (·.1) = es ∧ ∀ x ∈ typed, x.1.HasTy x.2

theorem exists_typings {es : List Expr} {vs : List Variable} (h : Expr.ArgsFit es vs) :
    ∃ typed, Typings es typed := by
  induction es generalizing vs with
  | nil => exact ⟨[], rfl, nofun⟩
  | cons e es ih =>
    cases h with
    | @cons _ _ _ _ t he _ hfit =>
      obtain ⟨typed, rfl, htyped⟩ := ih hfit
      exact ⟨(e, t) :: typed, rfl, List.forall_mem_cons.mpr ⟨he, htyped⟩⟩

/-- What both forms of call check, before what each does with the result. -/
theorem agrees_callOf (span : Span) {args : List Expr} {owner : String} {m : Signature}
    {nodes : List Node} {α : Type} {k : Ty → Checked α} {Q : α → Prop}
    (hr : E.Binds vars r (.method owner m))
    (hargs : (exprs args).Agrees (Expr.nodesOf args) (Typings args))
    (hk : Expr.ArgsFit args m.params → (k m.type.ty).Agrees nodes Q) :
    (do let _ ← ref r
        let typed ← exprs args
        let result ← call r typed span
        k result).Agrees (r.nodes ++ Expr.nodesOf args ++ nodes) fun a =>
      Expr.ArgsFit args m.params ∧ Q a := by
  have hall := (agrees_ref hr).bind fun _ _ => hargs.bind fun typed htyped =>
    (agrees_call span hr.meaning_eq htyped.2).bind fun t ht => ht.2 ▸ hk (htyped.1 ▸ ht.1)
  refine (hall.nodes_eq (by simp)).congr fun a => ⟨?_, ?_⟩
  · rintro ⟨_, _, typed, ⟨rfl, _⟩, _, ⟨hfit, rfl⟩, hQ⟩
    exact ⟨hfit, hQ⟩
  · rintro ⟨hfit, hQ⟩
    obtain ⟨typed, rfl, htyped⟩ := exists_typings hfit
    exact ⟨_, rfl, typed, ⟨rfl, htyped⟩, _, ⟨hfit, rfl⟩, hQ⟩

theorem literal_hasTy_iff {l : Literal} {t : Ty} : l.HasTy t ↔ t = literalTy l := by
  constructor
  · intro h
    cases h <;> rfl
  · rintro rfl
    cases l with
    | int digits => exact .int digits
    | bool value => exact .bool value
    | null => exact .null

mutual

theorem agrees_expr {e : Expr} (h : E.ExprBound vars e) : (expr e).Agrees e.nodes e.HasTy := by
  cases e with
  | unary op s e =>
    have hall := (agrees_expr (e := e) h).bind fun t ht =>
      (agrees_unary op (Expr.unary op s e).span ht.ne_error).bind fun t' ht' =>
        .record (.expr (.unary op s e)) (show Expr.HasTy _ t' from ht'.2.symm ▸ .unary ht'.1 ht)
    refine hall.congr fun t => ⟨?_, ?_⟩
    · rintro ⟨_, he, _, ⟨hop, rfl⟩, rfl⟩
      exact .unary hop he
    · intro ht
      cases ht with
      | unary hop he => exact ⟨_, he, _, ⟨hop, rfl⟩, rfl⟩
  | binary op s l r =>
    have hall := (agrees_expr (e := l) h.1).bind fun tl hl =>
      (agrees_expr (e := r) h.2).bind fun tr hr =>
        (agrees_binary op (Expr.binary op s l r).span hl.ne_error hr.ne_error).bind fun t ht =>
          .record (.expr (.binary op s l r)) (Expr.HasTy.binary ht hl hr)
    refine (hall.nodes_eq (by simp [Expr.nodes])).congr fun t => ⟨?_, ?_⟩
    · rintro ⟨_, hl, _, hr, _, hop, rfl⟩
      exact .binary hop hl hr
    · intro ht
      cases ht with
      | binary hop hl hr => exact ⟨_, hl, _, hr, _, hop, rfl⟩
  | ref r =>
    have hall :=
      (agrees_valueRef (r := r) h).bind fun t ht => .record (.expr (.ref r)) (Expr.HasTy.ref ht)
    refine hall.congr fun t => ⟨?_, ?_⟩
    · rintro ⟨_, hr, rfl⟩
      exact .ref hr
    · intro ht
      cases ht with
      | ref hr => exact ⟨_, hr, rfl⟩
  | index r i s =>
    have hall := (agrees_indexed (r := r) h.1).bind fun elem hr =>
      (agrees_expr (e := i) h.2).bind fun ti hi =>
        (agrees_expect "array index" .int i.span hi.ne_error).bind fun _ hint =>
          .record (.expr (.index r i s)) (Expr.HasTy.index hr (hint ▸ hi))
    refine (hall.nodes_eq (by simp [Expr.nodes])).congr fun t => ⟨?_, ?_⟩
    · rintro ⟨_, hr, _, hi, _, rfl, rfl⟩
      exact .index hr hi
    · intro ht
      cases ht with
      | index hr hi => exact ⟨_, hr, _, hi, (), rfl, rfl⟩
  | call r args s =>
    obtain ⟨⟨owner, m, hr⟩, hargs⟩ := h
    have hall := agrees_callOf s hr (agrees_exprs hargs) fun hfit =>
      .record (.expr (.call r args s)) (Expr.HasTy.call hr.meaning_eq hfit)
    refine hall.congr fun t => ⟨?_, ?_⟩
    · rintro ⟨hfit, rfl⟩
      exact .call hr.meaning_eq hfit
    · intro ht
      cases ht with
      | call hm hfit =>
        cases hr.meaning_eq.symm.trans hm
        exact ⟨hfit, rfl⟩
  | literal l s =>
    refine (Agrees.record (.expr (.literal l s)) (.literal (literal_hasTy_iff.mpr rfl))).congr
      fun t => ?_
    refine ⟨fun ht => .literal (literal_hasTy_iff.mpr ht), fun ht => ?_⟩
    cases ht with
    | literal hl => exact literal_hasTy_iff.mp hl
  | newObject c s =>
    refine (Agrees.record (.expr (.newObject c s)) .newObject).congr fun t => ⟨?_, ?_⟩
    · rintro rfl
      exact .newObject
    · intro ht
      cases ht
      rfl
  | newArray elem size s =>
    have hall := (agrees_expr (e := size) h).bind fun ts hs =>
      (agrees_expect "array size" .int size.span hs.ne_error).bind fun _ hint =>
        .record (.expr (.newArray elem size s)) (Expr.HasTy.newArray (hint ▸ hs))
    refine hall.congr fun t => ⟨?_, ?_⟩
    · rintro ⟨_, hs, _, rfl, rfl⟩
      exact .newArray hs
    · intro ht
      cases ht with
      | newArray hs => exact ⟨_, hs, (), rfl, rfl⟩

theorem agrees_exprs {es : List Expr} (h : E.ExprsBound vars es) :
    (exprs es).Agrees (Expr.nodesOf es) (Typings es) := by
  cases es with
  | nil => exact .give fun typed => by simp +contextual [Typings]
  | cons e es =>
    have hall := (agrees_expr (e := e) h.1).bind fun t ht =>
      (agrees_exprs (show E.ExprsBound vars es from h.2)).bind fun rest hrest =>
        Agrees.give (a := (e, t) :: rest) (P := fun typed => typed = (e, t) :: rest) fun _ =>
          Iff.rfl
    refine (hall.nodes_eq (by simp [Expr.nodesOf])).congr fun typed => ⟨?_, ?_⟩
    · rintro ⟨t, he, rest, ⟨rfl, hrest⟩, rfl⟩
      exact ⟨rfl, List.forall_mem_cons.mpr ⟨he, hrest⟩⟩
    · rintro ⟨hes, htyped⟩
      obtain ⟨⟨_, t⟩, rest, rfl, rfl, rfl⟩ := List.map_eq_cons_iff.mp hes
      obtain ⟨he, hrest⟩ := List.forall_mem_cons.mp htyped
      exact ⟨t, he, rest, ⟨rfl, hrest⟩, rfl⟩

end

theorem agrees_branch (s : Stmt) : (branch s).Agrees [] fun _ => s.isDeclaration = false := by
  cases s with
  | declare => exact .refuse (by simp [branch, report]) fun _ => nofun
  | block | assign | assignIndex | call | ret | ifThen | ifElse | loop =>
    exact .give fun _ => by simp [Stmt.isDeclaration]

variable (m : Signature)

mutual

theorem agrees_stmt {k : Nat} {vars : List Local} {s : Stmt} (h : E.StmtBound k vars s) :
    (stmt m s).Agrees s.nodes fun _ => s.WellTyped m := by
  cases s with
  | block body s =>
    refine (agrees_stmts (show E.StmtsBound k vars body from h)).congr fun _ =>
      ⟨.block, fun h => ?_⟩
    cases h with
    | block hbody => exact hbody
  | declare v init s =>
    have hall := (agrees_expr (e := init) h).bind fun t ht =>
      agrees_store s v.type.ty_ne_error ht.ne_error
    refine (hall.nodes_eq (List.append_nil _)).congr fun _ => ⟨?_, fun h => ?_⟩
    · rintro ⟨t, ht, hacc⟩
      exact .declare ht hacc
    · cases h with
      | declare ht hacc => exact ⟨_, ht, hacc⟩
  | assign r value s =>
    have hall := (agrees_target (r := r) h.1).bind fun location hr =>
      (agrees_expr (e := value) h.2).bind fun t ht => agrees_store s hr.ne_error ht.ne_error
    refine (hall.nodes_eq (by simp [Stmt.nodes])).congr fun _ => ⟨?_, fun h => ?_⟩
    · rintro ⟨_, hr, _, ht, hacc⟩
      exact .assign hr ht hacc
    · cases h with
      | assign hr ht hacc => exact ⟨_, hr, _, ht, hacc⟩
  | assignIndex r i value s =>
    have hall := (agrees_indexed (r := r) h.1).bind fun elem hr =>
      (agrees_expr (e := i) h.2.1).bind fun ti hi =>
        (agrees_expect "array index" .int i.span hi.ne_error).bind fun _ _ =>
          (agrees_expr (e := value) h.2.2).bind fun t ht =>
            agrees_store s (Ref.ValueTy.elem_ne_error hr) ht.ne_error
    refine (hall.nodes_eq (by simp [Stmt.nodes])).congr fun _ => ⟨?_, fun h => ?_⟩
    · rintro ⟨_, hr, _, hi, _, rfl, _, ht, hacc⟩
      exact .assignIndex hr hi ht hacc
    · cases h with
      | assignIndex hr hi ht hacc => exact ⟨_, hr, _, hi, (), rfl, _, ht, hacc⟩
  | call r args s =>
    obtain ⟨⟨owner, callee, hr⟩, hargs⟩ := h
    have hall := agrees_callOf s (k := fun _ => pure ()) hr (agrees_exprs hargs) fun _ =>
      .give (P := fun _ => True) fun _ => by simp
    refine (hall.nodes_eq (List.append_nil _)).congr fun _ => ⟨?_, fun h => ?_⟩
    · rintro ⟨hfit, _⟩
      exact .call hr.meaning_eq hfit
    · cases h with
      | call hm hfit =>
        cases hr.meaning_eq.symm.trans hm
        exact ⟨hfit, trivial⟩
  | ret value s =>
    cases value with
    | none =>
      rw [stmt]
      split
      · rename_i hv
        exact .give fun _ => by simp [Stmt.WellTyped.retNone hv]
      · rename_i hv
        refine .refuse (by simp [report]) fun _ h => hv ?_
        cases h with
        | retNone hv => exact hv
    | some value =>
      have hreturn (t : Ty) (ht : value.HasTy t) :
          (if m.type.ty = .void then report s (.valueFromVoid m.name)
            else store m.type.ty t s).Agrees []
            fun _ => m.type.ty ≠ .void ∧ m.type.ty.Accepts t := by
        split
        · rename_i hv
          exact .refuse (by simp [report]) fun _ h => h.1 hv
        · rename_i hv
          exact (agrees_store s m.type.ty_ne_error ht.ne_error).congr fun _ => by simp [hv]
      have hall := (agrees_expr (e := value) h).bind hreturn
      refine (hall.nodes_eq (List.append_nil _)).congr fun _ => ⟨?_, fun h => ?_⟩
      · rintro ⟨_, ht, hv, hacc⟩
        exact .ret hv ht hacc
      · cases h with
        | ret hv ht hacc => exact ⟨_, ht, hv, hacc⟩
  | ifThen cond t s =>
    have hall := (agrees_expr (e := cond) h.1).bind fun tc hc =>
      (agrees_expect "if condition" .boolean cond.span hc.ne_error).bind fun _ _ =>
        (agrees_branch t).bind fun _ _ => agrees_stmt h.2
    refine hall.congr fun _ => ⟨?_, fun h => ?_⟩
    · rintro ⟨_, hc, _, rfl, _, hdecl, ht⟩
      exact .ifThen hc hdecl ht
    · cases h with
      | ifThen hc hdecl ht => exact ⟨_, hc, (), rfl, (), hdecl, ht⟩
  | ifElse cond t e s =>
    have hall := (agrees_expr (e := cond) h.1).bind fun tc hc =>
      (agrees_expect "if condition" .boolean cond.span hc.ne_error).bind fun _ _ =>
        (agrees_branch t).bind fun _ _ => (agrees_stmt h.2.1).bind fun _ _ =>
          (agrees_branch e).bind fun _ _ => agrees_stmt h.2.2
    refine (hall.nodes_eq (by simp [Stmt.nodes])).congr fun _ => ⟨?_, fun h => ?_⟩
    · rintro ⟨_, hc, _, rfl, _, hdecl, _, ht, _, hdecl', he⟩
      exact .ifElse hc hdecl ht hdecl' he
    · cases h with
      | ifElse hc hdecl ht hdecl' he => exact ⟨_, hc, (), rfl, (), hdecl, (), ht, (), hdecl', he⟩
  | loop cond body s =>
    have hall := (agrees_expr (e := cond) h.1).bind fun tc hc =>
      (agrees_expect "while condition" .boolean cond.span hc.ne_error).bind fun _ _ =>
        (agrees_branch body).bind fun _ _ => agrees_stmt h.2
    refine hall.congr fun _ => ⟨?_, fun h => ?_⟩
    · rintro ⟨_, hc, _, rfl, _, hdecl, hbody⟩
      exact .loop hc hdecl hbody
    · cases h with
      | loop hc hdecl hbody => exact ⟨_, hc, (), rfl, (), hdecl, hbody⟩

theorem agrees_stmts {k : Nat} {vars : List Local} {ss : List Stmt} (h : E.StmtsBound k vars ss) :
    (stmts m ss).Agrees (Stmt.nodesOf ss) fun _ => Stmt.AllWellTyped m ss := by
  cases ss with
  | nil => exact .give fun _ => by simp [Stmt.AllWellTyped.nil]
  | cons s ss =>
    refine ((agrees_stmt h.1).bind fun _ _ => agrees_stmts h.2).congr fun _ => ⟨?_, fun h => ?_⟩
    · rintro ⟨_, hs, hss⟩
      exact .cons hs hss
    · cases h with
      | cons hs hss => exact ⟨(), hs, hss⟩

end

theorem agrees_ending (m : Method) :
    (ending m).Agrees [] fun _ =>
      m.type.ty ≠ .void → ∃ value s, m.body.getLast? = some (.ret value s) := by
  unfold ending
  split
  · rename_i hv
    exact .give fun _ => by simp [hv]
  · rename_i hv
    split
    · rename_i hlast
      exact .refuse (by simp [report]) fun _ h => by simp [hlast] at h; exact hv h
    · rename_i hlast
      exact .give fun _ => by simp [hlast]
    · rename_i hret hlast
      refine .refuse (by simp [report]) fun _ h => ?_
      obtain ⟨value, s, hs⟩ := h hv
      exact hret value s (Option.some.inj (hlast.symm.trans hs))

theorem agrees_method {m : Method} (h : E.StmtsBound 0 [] m.body) :
    (method m).Agrees m.nodes fun _ => m.WellTyped := by
  have hall := (agrees_stmts m.toSignature h).bind fun _ _ => agrees_ending m
  refine (hall.nodes_eq (List.append_nil _)).congr fun _ => ⟨?_, fun h => ⟨(), h.body, h.returns⟩⟩
  rintro ⟨_, hbody, hreturns⟩
  exact ⟨hbody, hreturns⟩

theorem agrees_methods {p : Program} {owner : String} {ms : List Method}
    (h : ∀ m ∈ ms, (p.setting owner m).StmtsBound 0 [] m.body) :
    (methods ms).Agrees (ms.flatMap Method.nodes) fun _ => ∀ m ∈ ms, m.WellTyped := by
  induction ms with
  | nil => exact .give fun _ => by simp
  | cons m ms ih =>
    obtain ⟨hm, hms⟩ := List.forall_mem_cons.mp h
    refine ((agrees_method hm).bind fun _ _ => ih hms).congr fun _ => ?_
    rw [List.forall_mem_cons]
    exact ⟨fun ⟨_, hm, hms⟩ => ⟨hm, hms⟩, fun ⟨hm, hms⟩ => ⟨(), hm, hms⟩⟩

theorem agrees_classes {p : Program} {cs : List ClassDecl}
    (h : ∀ c ∈ cs, ∀ m ∈ c.methods, (p.setting c.name m).StmtsBound 0 [] m.body) :
    (classes cs).Agrees (cs.flatMap fun c => c.methods.flatMap Method.nodes)
      fun _ => ∀ c ∈ cs, ∀ m ∈ c.methods, m.WellTyped := by
  induction cs with
  | nil => exact .give fun _ => by simp
  | cons c cs ih =>
    obtain ⟨hc, hcs⟩ := List.forall_mem_cons.mp h
    refine ((agrees_methods hc).bind fun _ _ => ih hcs).congr fun _ => ?_
    rw [List.forall_mem_cons]
    exact ⟨fun ⟨_, hc, hcs⟩ => ⟨hc, hcs⟩, fun ⟨hc, hcs⟩ => ⟨(), hc, hcs⟩⟩

end Check

theorem Signature.isMain_iff {m : Signature} : m.isMain = true ↔ m.IsEntry := by
  simp only [Signature.isMain, Bool.and_eq_true, beq_iff_eq, Bool.not_eq_true']
  constructor
  · rintro ⟨⟨⟨⟨hname, hpriv⟩, hstatic⟩, hvoid⟩, hparams⟩
    exact ⟨hname, hpriv, hstatic, hvoid, hparams⟩
  · rintro ⟨hname, hpriv, hstatic, hvoid, hparams⟩
    exact ⟨⟨⟨⟨hname, hpriv⟩, hstatic⟩, hvoid⟩, hparams⟩

namespace Program

variable {p : Program}

theorem mains_eq : p.mains = (p.methods.filter (·.2.isMain)).map fun x =>
    (⟨x.1, x.2.name⟩, x.2.toSignature) := by
  simp [mains, methods, List.filter_flatMap, List.map_flatMap, List.filter_map, Function.comp_def]

theorem entersAt_iff {key : MethodKey} : p.EntersAt key ↔ ∃ m, p.mains = [(key, m)] := by
  rw [mains_eq]
  constructor
  · rintro ⟨before, m, after, hmethods, hname, hentry, hothers⟩
    have hrest (xs : List (String × Method)) (h : ∀ x ∈ xs, ¬ x.2.IsEntry) :
        xs.filter (·.2.isMain) = [] :=
      List.filter_eq_nil_iff.mpr fun x hx hmain => h x hx (Signature.isMain_iff.mp hmain)
    refine ⟨m.toSignature, ?_⟩
    rw [hmethods, List.filter_append, hrest before fun x hx =>
      hothers x (List.mem_append_left _ hx), List.filter_cons, hrest after fun x hx =>
      hothers x (List.mem_append_right _ hx)]
    simp [hname, Signature.isMain_iff.mpr hentry]
  · rintro ⟨m, hm⟩
    obtain ⟨x, xs, hfilter, hkey, hxs⟩ := List.map_eq_cons_iff.mp hm
    cases List.map_eq_nil_iff.mp hxs
    obtain ⟨before, after, hmethods, hbefore, hmain, hafter⟩ := List.filter_eq_cons_iff.mp hfilter
    cases hkey
    refine ⟨before, x.2, after, hmethods, rfl, Signature.isMain_iff.mp hmain, fun y hy hentry => ?_⟩
    have hy' := Signature.isMain_iff.mpr hentry
    rcases List.mem_append.mp hy with hy | hy
    · exact hbefore y hy hy'
    · exact List.filter_eq_nil_iff.mp hafter y hy hy'

theorem nodes_eq :
    p.nodes.map (·.2.2) = p.classes.flatMap fun c => c.methods.flatMap Method.nodes := by
  rw [nodes, List.map_flatten, List.flatMap_def, map_mapIdx_eq_map]
  intro i c
  rw [List.map_flatten, List.flatMap_def, map_mapIdx_eq_map]
  intro j m
  simp [Function.comp_def]

theorem check_errors_eq_nil_iff : p.check.errors = [] ↔
    (∃ key m, p.mains = [(key, m)]) ∧ (Check.classes p.classes).errors = [] := by
  unfold check
  split
  · rename_i h
    simp [h]
  · rename_i main sig others h
    cases others with
    | nil => simp [h]
    | cons second rest => simp [h]

theorem wellTyped_of_check {q : Program} (h : p.resolve = .ok q) (herrors : q.check.errors = []) :
    q.WellTyped ∧ ∃ key, q.check.entry = some key ∧ q.EntersAt key := by
  obtain ⟨⟨key, m, hm⟩, hclasses⟩ := check_errors_eq_nil_iff.mp herrors
  have hkey : q.EntersAt key := entersAt_iff.mpr ⟨m, hm⟩
  have hmethods := ((Check.agrees_classes (bound_of_resolve h).bodies).sound hclasses).1
  exact ⟨⟨⟨key, hkey⟩, hmethods⟩, key, by simp [check, hm], hkey⟩

/-- A resolved program passes exactly if it is well typed. Then the entry found is its one entry
method, and the table of types lists every reference and expression with its type. -/
theorem check_passes_iff_wellTyped {q : Program} (h : p.resolve = .ok q) :
    (q.check.errors = [] ↔ q.WellTyped) ∧
      (q.WellTyped → (∀ key, q.check.entry = some key ↔ q.EntersAt key) ∧
        q.check.types.map (·.1) = q.nodes.map (·.2.2) ∧
        ∀ x ∈ q.check.types, x.1.HasTy x.2 ∧ x.2 ≠ .error) := by
  have hagrees := Check.agrees_classes (bound_of_resolve h).bodies
  have hpasses : q.check.errors = [] ↔ q.WellTyped := by
    refine ⟨fun herrors => (wellTyped_of_check h herrors).1, fun ⟨⟨key, hkey⟩, hmethods⟩ => ?_⟩
    obtain ⟨m, hm⟩ := entersAt_iff.mp hkey
    exact check_errors_eq_nil_iff.mpr ⟨⟨key, m, hm⟩, (hagrees.complete () hmethods).1⟩
  refine ⟨hpasses, fun hq => ?_⟩
  obtain ⟨⟨key, m, hm⟩, herrors⟩ := check_errors_eq_nil_iff.mp (hpasses.mpr hq)
  obtain ⟨-, hkeys, htypes⟩ := hagrees.sound herrors
  have hcheck : q.check.entry = some key ∧ q.check.types = (Check.classes q.classes).types := by
    unfold check
    simp [hm]
  refine ⟨fun key' => ?_, ?_, ?_⟩
  · rw [hcheck.1, entersAt_iff, hm]
    simp
  · rw [hcheck.2, hkeys, nodes_eq]
  · rw [hcheck.2]
    exact fun x hx => ⟨htypes x hx, (htypes x hx).ne_error⟩

/-- A program whose one statement is `boolean empty = args == null;`, where `args` denotes `d`. -/
def argumentTest (d : Option Meaning) : Program where
  classes := [{
    id := ⟨"Main", .line 1⟩
    span := .line 1
    fields := []
    methods := [{
      name := "main", type := .void (.line 1), span := .line 1, isPrivate := false, isStatic := true
      params := [⟨"args", .array (.cls ⟨"String", .line 1⟩) (.line 1), .line 1⟩]
      body := [.declare ⟨"empty", .boolean (.line 2), .line 2⟩
        (.binary .eq (.line 2) (.ref (.name ⟨"args", .line 2⟩ d)) (.literal .null (.line 2)))
        (.line 2)] }] }]
  span := .line 1

theorem argumentTest_wellTyped :
    let q := argumentTest
      (some (.param 0 ⟨"args", .array (.cls ⟨"String", .line 1⟩) (.line 1), .line 1⟩))
    (argumentTest none).resolve = .ok q ∧ q.WellTyped ∧ q.EntersAt ⟨"Main", "main"⟩ := by
  intro q
  have hresolve : (argumentTest none).resolve = .ok q := rfl
  obtain ⟨hpasses, htypes⟩ := check_passes_iff_wellTyped hresolve
  have hq : q.WellTyped := hpasses.mp (by decide)
  exact ⟨hresolve, hq, ((htypes hq).1 _).mp rfl⟩

end Program

end MiniJava
