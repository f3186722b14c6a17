import Mathlib.Logic.Relation
import MiniJava.Proofs.Typing.Rules
/-!
Faults do not cascade. The error type stands for a fault that has been reported: a phrase has it
only if some fault was reported while it was checked, and an operator says nothing about operands
that have it. So of the operators that are applied to each other at most one on each path downwards
reports a fault.
-/
namespace MiniJava

/-- Every reference in the expression, qualifiers and call targets included, has a meaning. -/
def Expr.Complete (e : Expr) : Prop := ∀ r, .ref r ∈ e.nodes → r.meaning ≠ none

/-- What an operator is applied to. -/
def Expr.operands : Expr → List Expr
  | unary _ _ e => [e]
  | binary _ _ l r => [l, r]
  | _ => []

/-- The expression is a unary or binary operator applied to operands. -/
def Expr.IsOperator (e : Expr) : Prop := e.operands ≠ []

/-- `n` is reached from an expression by going down through operands only, by one step or more. -/
def Expr.Below (n e : Expr) : Prop := Relation.TransGen (fun n e => n ∈ e.operands) n e

/-- The silence of a check vouches for its outcome. -/
def Checked.Vouches {α : Type} (c : Checked α) (P : α → Prop) : Prop := c.errors = [] → P c.value

namespace Checked.Vouches

variable {α β : Type} {P : α → Prop} {Q : β → Prop}

theorem give {a : α} (h : P a) : (pure a : Checked α).Vouches P := fun _ => h

theorem reported {c : Checked α} (h : c.errors ≠ []) : c.Vouches P := fun hc => absurd hc h

theorem bind {x : Checked α} {f : α → Checked β} (hx : x.Vouches P)
    (hf : ∀ a, P a → (f a).Vouches Q) : (x >>= f).Vouches Q := by
  intro h
  obtain ⟨hxe, hfe⟩ := List.append_eq_nil_iff.mp h
  exact hf _ (hx hxe) hfe

theorem trivial {c : Checked α} : c.Vouches fun _ => True := fun _ => True.intro

end Checked.Vouches

namespace Check

open Checked

section References

variable {r : Ref}

theorem ref_value : (ref r).value = refTy r := by
  cases r <;> rfl

theorem vouches_valueRef (h : r.meaning ≠ none) :
    (valueRef r).Vouches fun t => ∃ d : Meaning, t = d.ty := by
  obtain ⟨d, hd⟩ := Option.ne_none_iff_exists'.mp h
  have hty : (ref r).value = d.ty := by rw [ref_value, refTy, hd]; rfl
  unfold valueRef
  refine Vouches.bind (P := fun t => t = d.ty) (fun _ => hty) ?_
  rintro t rfl
  split
  · exact .reported (List.cons_ne_nil _ _)
  · exact .give ⟨d, rfl⟩
  · exact .reported (List.cons_ne_nil _ _)
  · exact .give ⟨d, rfl⟩

theorem vouches_indexed (h : r.meaning ≠ none) : (indexed r).Vouches (· ≠ .error) := by
  unfold indexed
  refine (vouches_valueRef h).bind ?_
  rintro t ⟨d, rfl⟩
  split
  · rename_i hd
    exact absurd hd d.ty_ne_error
  · rename_i elem hd
    exact .give (Meaning.elem_ne_error hd)
  · exact .reported (List.cons_ne_nil _ _)

end References

/-- What an operator makes of the types of its operands: at most one fault, and this only if no
operand has the error type. -/
structure OperatorStep (operands : List Ty) (c : Checked Ty) : Prop where
  once : c.errors.length ≤ 1
  justified : c.errors ≠ [] → (∀ t ∈ operands, t ≠ .error) ∧ c.value = .error
  passes : c.value ≠ .error → ∀ t ∈ operands, t ≠ .error
  vouches : (∀ t ∈ operands, t ≠ .error) → c.Vouches (· ≠ .error)

namespace OperatorStep

variable {operands : List Ty}

theorem silent {t : Ty} (h : t ≠ .error → ∀ t ∈ operands, t ≠ .error)
    (h' : (∀ t ∈ operands, t ≠ .error) → t ≠ .error) : OperatorStep operands (pure t) :=
  ⟨Nat.zero_le 1, fun hc => absurd rfl hc, h, fun hts => .give (h' hts)⟩

theorem wrong {span : Span} {fault : TypeFault} (h : ∀ t ∈ operands, t ≠ .error) :
    OperatorStep operands (Checked.wrong span fault) :=
  ⟨Nat.le_refl 1, fun _ => ⟨h, rfl⟩, fun hv => absurd rfl hv,
    fun _ => .reported (List.cons_ne_nil _ _)⟩

end OperatorStep

theorem unary_step (op : UnaryOp) (t : Ty) (span : Span) : OperatorStep [t] (unary op t span) := by
  unfold unary
  split
  · rename_i ht
    refine .silent (fun h => absurd rfl h) fun h => absurd ht (h t List.mem_cons_self)
  · rename_i ht
    have hts : ∀ t' ∈ [t], t' ≠ .error := by simpa using ht
    split
    · exact .silent (fun _ => hts) fun _ => by cases op <;> decide
    · exact .wrong hts

theorem binary_step (op : BinaryOp) (l r : Ty) (span : Span) :
    OperatorStep [l, r] (binary op l r span) := by
  unfold binary
  split
  · rename_i herror
    refine .silent (fun h => absurd rfl h) fun h => ?_
    rcases herror with hl | hr
    · exact absurd hl (h l (by simp))
    · exact absurd hr (h r (by simp))
  · rename_i herror
    have hts : ∀ t ∈ [l, r], t ≠ .error := by simpa using herror
    split
    · rename_i operand result hop
      split
      · refine .silent (fun _ => hts) fun _ => ?_
        revert hop
        cases op <;> simp [binaryTy?] <;> rintro - rfl <;> decide
      · exact .wrong hts
    · split
      · exact .silent (fun _ => hts) fun _ => by decide
      · exact .wrong hts

/-- The faults that an expression reports itself: those of its check that come after the ones of its
operands. -/
def reported (e : Expr) : List TypeError :=
  (expr e).errors.drop (e.operands.flatMap fun o => (expr o).errors).length

/-- The check of an operator is that of its operands and a step of its own. -/
theorem operator_step {e : Expr} (h : e.IsOperator) :
    ∃ c, OperatorStep (e.operands.map fun o => (expr o).value) c ∧ (expr e).value = c.value ∧
      (expr e).errors = (e.operands.flatMap fun o => (expr o).errors) ++ c.errors := by
  cases e with
  | unary op s e =>
    refine ⟨_, unary_step op (expr e).value (Expr.unary op s e).span, ?_⟩
    rw [expr]
    refine ⟨rfl, ?_⟩
    simp [Expr.operands, record, bind]
  | binary op s l r =>
    refine ⟨_, binary_step op (expr l).value (expr r).value (Expr.binary op s l r).span, ?_⟩
    rw [expr]
    refine ⟨rfl, ?_⟩
    simp [Expr.operands, record, bind]
  | ref | index | call | literal | newObject | newArray => exact absurd rfl h

section Calls

variable {m : Signature} {r : Ref} {typed : List (Expr × Ty)}

theorem vouches_arguments {i : Nat} {vs : List Variable} (h : ∀ x ∈ typed, x.2 ≠ .error) :
    (arguments m i vs typed).Vouches (· ≠ .error) := by
  induction vs generalizing i typed with
  | nil => exact .give m.type.ty_ne_error
  | cons v vs ih =>
    cases typed with
    | nil => exact .give m.type.ty_ne_error
    | cons x typed =>
      obtain ⟨hx, htyped⟩ := List.forall_mem_cons.mp h
      rw [arguments, if_neg hx]
      split
      · exact ih htyped
      · exact .reported (List.cons_ne_nil _ _)

theorem vouches_call {span : Span} (h : ∀ x ∈ typed, x.2 ≠ .error) :
    (call r typed span).Vouches (· ≠ .error) := by
  unfold call
  split
  · split
    · exact vouches_arguments h
    · exact .reported (List.cons_ne_nil _ _)
  · exact .reported (List.cons_ne_nil _ _)

end Calls

theorem vouches_record {n : Node} {t : Ty} (h : t ≠ .error) : (record n t).Vouches (· ≠ .error) :=
  fun _ => h

mutual

theorem vouches_expr :
    ∀ {e : Expr}, (∀ r, .ref r ∈ e.nodes → r.meaning ≠ none) → (expr e).Vouches (· ≠ .error)
  | .unary op s e, h => by
    rw [expr]
    have he := vouches_expr (e := e) fun r hr => h r (List.mem_append_left _ hr)
    refine he.bind fun t ht => ?_
    refine ((unary_step op t _).vouches (by simpa using ht)).bind fun t' ht' => vouches_record ht'
  | .binary op s l r, h => by
    rw [expr]
    have hl :=
      vouches_expr (e := l) fun r' hr => h r' (List.mem_append_left _ (List.mem_append_left _ hr))
    have hr :=
      vouches_expr (e := r) fun r' hr => h r' (List.mem_append_left _ (List.mem_append_right _ hr))
    refine hl.bind fun tl htl => hr.bind fun tr htr => ?_
    refine ((binary_step op tl tr _).vouches (by simpa using ⟨htl, htr⟩)).bind fun t' ht' =>
      vouches_record ht'
  | .ref r, h => by
    rw [expr]
    refine (vouches_valueRef (h r (List.mem_append_left _ r.self_mem_nodes))).bind ?_
    rintro t ⟨d, rfl⟩
    exact vouches_record d.ty_ne_error
  | .index r i s, h => by
    rw [expr]
    have hr :=
      vouches_indexed (h r (List.mem_append_left _ (List.mem_append_left _ r.self_mem_nodes)))
    refine hr.bind fun elem helem => ?_
    exact Vouches.trivial.bind fun _ _ => Vouches.trivial.bind fun _ _ => vouches_record helem
  | .call r args s, h => by
    rw [expr]
    have hargs : (exprs args).Vouches _ :=
      vouches_exprs fun r' hr => h r' (List.mem_append_left _ (List.mem_append_right _ hr))
    refine Vouches.trivial.bind fun _ _ => hargs.bind fun typed htyped => ?_
    exact (vouches_call htyped).bind fun t ht => vouches_record ht
  | .literal l s, h => by
    rw [expr]
    exact vouches_record (by cases l <;> exact Ty.noConfusion)
  | .newObject c s, h => by
    rw [expr]
    exact vouches_record Ty.noConfusion
  | .newArray t size s, h => by
    rw [expr]
    exact Vouches.trivial.bind fun _ _ => Vouches.trivial.bind fun _ _ =>
      vouches_record Ty.noConfusion

theorem vouches_exprs : ∀ {es : List Expr}, (∀ r, .ref r ∈ Expr.nodesOf es → r.meaning ≠ none) →
    (exprs es).Vouches fun typed => ∀ x ∈ typed, x.2 ≠ .error
  | [], _ => by
    rw [exprs]
    exact .give (by simp)
  | e :: es, h => by
    rw [exprs]
    have he := vouches_expr (e := e) fun r hr => h r (List.mem_append_left _ hr)
    have hes : (exprs es).Vouches _ := vouches_exprs fun r hr => h r (List.mem_append_right _ hr)
    refine he.bind fun t ht => hes.bind fun typed htyped => ?_
    exact .give (List.forall_mem_cons.mpr ⟨ht, htyped⟩)

end

section Operators

variable {e n : Expr}

theorem errors_eq (h : e.IsOperator) :
    (expr e).errors = (e.operands.flatMap fun o => (expr o).errors) ++ reported e := by
  obtain ⟨c, -, -, herrors⟩ := operator_step h
  rw [reported, herrors, List.drop_left]

/-- What is known of an operator's own faults. -/
theorem reported_step (h : e.IsOperator) : (reported e).length ≤ 1 ∧
    (reported e ≠ [] → (∀ o ∈ e.operands, (expr o).value ≠ .error) ∧ (expr e).value = .error) ∧
    ((expr e).value ≠ .error → ∀ o ∈ e.operands, (expr o).value ≠ .error) := by
  obtain ⟨c, hstep, hvalue, herrors⟩ := operator_step h
  have hreported : reported e = c.errors := by rw [reported, herrors, List.drop_left]
  have hoperands (hts : ∀ t ∈ e.operands.map fun o => (expr o).value, t ≠ .error) :
      ∀ o ∈ e.operands, (expr o).value ≠ .error := fun o ho => hts _ (List.mem_map_of_mem ho)
  rw [hreported, hvalue]
  refine ⟨hstep.once, fun hc => ?_, fun hv => hoperands (hstep.passes hv)⟩
  obtain ⟨hts, herror⟩ := hstep.justified hc
  exact ⟨hoperands hts, herror⟩

/-- If the operands of an expression have types, so has all that is reached through operands. -/
theorem value_ne_error_of_below (h : n.Below e) (he : ∀ o ∈ e.operands, (expr o).value ≠ .error) :
    (expr n).value ≠ .error := by
  induction h with
  | single hn => exact he _ hn
  | @tail m e' hbelow hm ih =>
    refine ih ?_
    by_cases hop : m.IsOperator
    · exact (reported_step hop).2.2 (he m hm)
    · have hnil : m.operands = [] := Classical.not_not.mp hop
      rw [hnil]
      intro o ho
      cases ho

end Operators

/-- Faults do not cascade. If the error type comes out of an expression, a fault was reported on the
way. An operator reports at most one fault of its own, and only if no operand has the error type. So
if it reports one, no operator that is reached from it through operands has reported any. -/
theorem operator_faults_antichain (e : Expr) (h : e.Complete) :
    ((expr e).value = .error → (expr e).errors ≠ []) ∧
    (e.IsOperator →
      (expr e).errors = (e.operands.flatMap fun o => (expr o).errors) ++ reported e ∧
      (reported e).length ≤ 1 ∧ (reported e ≠ [] → ∀ o ∈ e.operands, (expr o).value ≠ .error)) ∧
    (reported e ≠ [] → ∀ n : Expr, n.IsOperator → n.Below e → reported n = []) := by
  refine ⟨fun herror hsilent => vouches_expr h hsilent herror, fun hop => ?_,
    fun hreported n hn hbelow => ?_⟩
  · obtain ⟨honce, hjustified, -⟩ := reported_step hop
    exact ⟨errors_eq hop, honce, fun hreported => (hjustified hreported).1⟩
  · have hop : e.IsOperator := by
      obtain ⟨m, -, hm⟩ := Relation.TransGen.tail'_iff.mp hbelow
      exact List.ne_nil_of_mem hm
    have hvalue := value_ne_error_of_below hbelow ((reported_step hop).2.1 hreported).1
    refine Classical.byContradiction fun hn' => ?_
    exact hvalue ((reported_step hn).2.1 hn').2

/-- `1 + 2` -/
def sum : Expr :=
  .binary .add (.line 1) (.literal (.int "1") (.line 1)) (.literal (.int "2") (.line 1))

/-- `!(1 + 2)` -/
def negatedSum : Expr := .unary .not (.line 1) sum

/-- The negation is reported, and the sum below it is not. -/
theorem negatedSum_reported :
    negatedSum.Complete ∧ (expr negatedSum).errors ≠ [] ∧ reported negatedSum ≠ [] ∧
      sum.Below negatedSum ∧ reported sum = [] := by
  have hcomplete : negatedSum.Complete := by simp [Expr.Complete, negatedSum, sum, Expr.nodes]
  have hreported : reported negatedSum ≠ [] := List.cons_ne_nil _ _
  have hbelow : sum.Below negatedSum := .single List.mem_cons_self
  obtain ⟨herror, -, hsilent⟩ := operator_faults_antichain negatedSum hcomplete
  exact ⟨hcomplete, herror rfl, hreported, hbelow,
    hsilent hreported sum (List.cons_ne_nil _ _) hbelow⟩

end Check

end MiniJava
