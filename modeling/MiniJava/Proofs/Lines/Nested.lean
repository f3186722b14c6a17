import Mathlib.Logic.Relation
import MiniJava.Proofs.Syntax.Grouping
import MiniJava.Syntax.Tree
/-!
The lines of phrases. A phrase is nested if it covers the lines of its parts, which are nested
themselves, and the statements and arguments in it come one after another.
-/
namespace MiniJava

/-- A phrase that has lines of its own. -/
inductive Phrase where
  | program (p : Program)
  | cls (c : ClassDecl)
  | field (f : Field)
  | method (m : Method)
  | var (v : Variable)
  | type (t : TypeName)
  | stmt (s : Stmt)
  | expr (e : Expr)
  | operator (span : Span)
  | ref (r : Ref)
  | ident (id : Ident)

namespace Phrase

def span : Phrase → Span
  | program p => p.span
  | cls c => c.span
  | field f => f.span
  | method m => m.span
  | var v => v.span
  | type t => t.span
  | stmt s => s.span
  | expr e => e.span
  | operator s => s
  | ref r => r.span
  | ident id => id.span

/-- The phrases of which a phrase is made. -/
def parts : Phrase → List Phrase
  | program p => p.classes.map cls
  | cls c => ident c.id :: (c.fields.map field ++ c.methods.map method)
  | field f => [type f.type]
  | method m => type m.type :: (m.params.map var ++ m.body.map stmt)
  | var v => [type v.type]
  | type (.array elem _) => [type elem]
  | type (.cls id) => [ident id]
  | type (.int _) => []
  | type (.boolean _) => []
  | type (.void _) => []
  | stmt (.block body _) => body.map stmt
  | stmt (.declare v init _) => [var v, expr init]
  | stmt (.assign r value _) => [ref r, expr value]
  | stmt (.assignIndex r i value _) => [ref r, expr i, expr value]
  | stmt (.call r args _) => ref r :: args.map expr
  | stmt (.ret none _) => []
  | stmt (.ret (some value) _) => [expr value]
  | stmt (.ifThen cond t _) => [expr cond, stmt t]
  | stmt (.ifElse cond t e _) => [expr cond, stmt t, stmt e]
  | stmt (.loop cond body _) => [expr cond, stmt body]
  | expr (.unary _ s e) => [operator s, expr e]
  | expr (.binary _ s l r) => [expr l, operator s, expr r]
  | expr (.ref r) => [ref r]
  | expr (.index r i _) => [ref r, expr i]
  | expr (.call r args _) => ref r :: args.map expr
  | expr (.literal _ _) => []
  | expr (.newObject c _) => [ident c]
  | expr (.newArray t size _) => [type t, expr size]
  | operator _ => []
  | ref (.this _ _) => []
  | ref (.name id _) => [ident id]
  | ref (.member q id _) => [ref q, ident id]
  | ident _ => []

/-- The parts that follow each other as statements of a block or arguments of a call. -/
def sequence : Phrase → List Phrase
  | method m => m.body.map stmt
  | stmt (.block body _) => body.map stmt
  | stmt (.call _ args _) => args.map expr
  | expr (.call _ args _) => args.map expr
  | _ => []

/-- `n` is `m` or a part of it, or a part of a part, and so on. -/
def PartOf (n m : Phrase) : Prop := Relation.ReflTransGen (fun m n => n ∈ m.parts) m n

/-- One phrase ends before or on the line where the other starts. -/
def Before (a b : Phrase) : Prop := a.span.last ≤ b.span.first

/-- The lines of a phrase are a range that covers those of its parts. -/
structure WellPlaced (n : Phrase) : Prop where
  proper : n.span.first ≤ n.span.last
  covers : ∀ x ∈ n.parts, n.span.first ≤ x.span.first ∧ x.span.last ≤ n.span.last
  inOrder : n.sequence.Pairwise Before

inductive Nested : Phrase → Prop
  | mk {n : Phrase} : n.WellPlaced → (∀ x ∈ n.parts, Nested x) → Nested n

theorem Nested.wellPlaced {n : Phrase} (h : n.Nested) : n.WellPlaced := by
  cases h with
  | mk h _ => exact h

theorem Nested.of_partOf {n m : Phrase} (h : m.Nested) (hn : n.PartOf m) : n.Nested := by
  induction hn with
  | refl => exact h
  | tail _ hpart ih =>
    cases ih with
    | mk _ hparts => exact hparts _ hpart

variable {n : Phrase} {ns : List Phrase} {lo hi : Int}

/-- A nested phrase on the lines from `lo` to `hi`. -/
structure Inside (lo hi : Int) (n : Phrase) : Prop where
  nested : n.Nested
  first : lo ≤ n.span.first
  last : n.span.last ≤ hi

namespace Inside

theorem proper (h : n.Inside lo hi) : n.span.first ≤ n.span.last := h.nested.wellPlaced.proper

theorem le (h : n.Inside lo hi) : lo ≤ hi := Int.le_trans h.first (Int.le_trans h.proper h.last)

theorem mono {lo' hi' : Int} (h : n.Inside lo hi) (hlo : lo' ≤ lo)
    (hhi : hi ≤ hi') : n.Inside lo' hi' :=
  ⟨h.nested, Int.le_trans hlo h.first, Int.le_trans h.last hhi⟩

theorem fromFirst (h : n.Inside lo hi) : n.Inside n.span.first hi :=
  ⟨h.nested, Int.le_refl _, h.last⟩

theorem toLast (h : n.Inside lo hi) : n.Inside lo n.span.last := ⟨h.nested, h.first, Int.le_refl _⟩

/-- A phrase on all of some lines is nested if its parts stand on these lines. -/
theorem whole (hspan : n.span = ⟨lo, hi⟩) (h : lo ≤ hi) (hparts : ∀ x ∈ n.parts, x.Inside lo hi)
    (horder : n.sequence.Pairwise Before) : n.Inside lo hi := by
  have hfirst : n.span.first = lo := congrArg Span.first hspan
  have hlast : n.span.last = hi := congrArg Span.last hspan
  refine ⟨.mk ⟨?_, ?_, horder⟩ fun x hx => (hparts x hx).nested, Int.le_of_eq hfirst.symm,
    Int.le_of_eq hlast⟩
  · rw [hfirst, hlast]
    exact h
  · intro x hx
    rw [hfirst, hlast]
    exact ⟨(hparts x hx).first, (hparts x hx).last⟩

end Inside

/-- Phrases on the lines from `lo` to `hi`, one after another. -/
structure Row (lo hi : Int) (ns : List Phrase) : Prop where
  le : lo ≤ hi
  inside : ∀ n ∈ ns, n.Inside lo hi
  inOrder : ns.Pairwise Before

namespace Row

theorem nil (h : lo ≤ hi) : Row lo hi [] := ⟨h, by simp, .nil⟩

theorem cons {mid mid' : Int} (hn : n.Inside lo mid) (hmid : mid ≤ mid')
    (hns : Row mid' hi ns) : Row lo hi (n :: ns) := by
  have hle := hn.le
  have hle' := hns.le
  refine ⟨by omega, List.forall_mem_cons.mpr ⟨hn.mono (Int.le_refl _) (by omega), ?_⟩, ?_⟩
  · intro x hx
    exact (hns.inside x hx).mono (by omega) (Int.le_refl _)
  · refine List.pairwise_cons.mpr ⟨fun x hx => ?_, hns.inOrder⟩
    exact Int.le_trans hn.last (Int.le_trans hmid (hns.inside x hx).first)

theorem single (h : n.Inside lo hi) : Row lo hi [n] :=
  .cons h (Int.le_refl _) (.nil (Int.le_refl _))

theorem append {mid mid' : Int} {ms : List Phrase} (hns : Row lo mid ns) (hmid : mid ≤ mid')
    (hms : Row mid' hi ms) : Row lo hi (ns ++ ms) := by
  have hle := hns.le
  have hle' := hms.le
  refine ⟨by omega, List.forall_mem_append.mpr ⟨?_, ?_⟩,
    List.pairwise_append.mpr ⟨hns.inOrder, hms.inOrder, ?_⟩⟩
  · exact fun x hx => (hns.inside x hx).mono (Int.le_refl _) (by omega)
  · exact fun x hx => (hms.inside x hx).mono (by omega) (Int.le_refl _)
  · intro x hx y hy
    exact Int.le_trans (hns.inside x hx).last (Int.le_trans hmid (hms.inside y hy).first)

theorem mono {lo' hi' : Int} (h : Row lo hi ns) (hlo : lo' ≤ lo)
    (hhi : hi ≤ hi') : Row lo' hi' ns :=
  ⟨Int.le_trans hlo (Int.le_trans h.le hhi), fun n hn => (h.inside n hn).mono hlo hhi, h.inOrder⟩

end Row

namespace Inside

theorem row (hspan : n.span = ⟨lo, hi⟩) (hparts : Row lo hi n.parts)
    (horder : n.sequence.Pairwise Before) : n.Inside lo hi :=
  whole hspan hparts.le hparts.inside horder

variable {mid mid' : Int} {s : Span} {x : String}

theorem ident (h : s.first ≤ s.last) : (Phrase.ident ⟨x, s⟩).Inside s.first s.last :=
  .row rfl (.nil h) .nil

theorem classType (h : s.first ≤ s.last) : (Phrase.type (.cls ⟨x, s⟩)).Inside s.first s.last :=
  .row rfl (.single (ident h)) .nil

theorem name (h : s.first ≤ s.last) : (Phrase.ref (.name ⟨x, s⟩ none)).Inside s.first s.last :=
  .row rfl (.single (ident h)) .nil

theorem operator (h : s.first ≤ s.last) : (Phrase.operator s).Inside s.first s.last :=
  .row rfl (.nil h) .nil

theorem array {elem : TypeName} (h : (type elem).Inside lo mid) (hs : mid ≤ s.last) :
    (type (.array elem (elem.span.through s))).Inside lo s.last := by
  have hwhole : (type (.array elem (elem.span.through s))).Inside elem.span.first s.last :=
    .row rfl (.single (h.fromFirst.mono (Int.le_refl _) hs)) .nil
  exact hwhole.mono h.first (Int.le_refl _)

theorem member {r : Ref} (hr : (ref r).Inside lo mid) (hmid : mid ≤ s.first)
    (hs : s.first ≤ s.last) : (ref (.member r ⟨x, s⟩ none)).Inside lo s.last := by
  have hwhole : (ref (.member r ⟨x, s⟩ none)).Inside (ref r).span.first s.last :=
    .row rfl (.cons hr.fromFirst hmid (.single (ident hs))) .nil
  exact hwhole.mono hr.first (Int.le_refl _)

theorem value {r : Ref} (hr : (ref r).Inside lo hi) : (expr (.ref r)).Inside lo hi := by
  have hwhole : (expr (.ref r)).Inside (ref r).span.first (ref r).span.last :=
    .row rfl (.single hr.fromFirst.toLast) .nil
  exact hwhole.mono hr.first hr.last

theorem unary {op : UnaryOp} {e : Expr} (hs : s.first ≤ s.last) (hmid : s.last ≤ mid)
    (he : (expr e).Inside mid hi) : (expr (.unary op s e)).Inside s.first hi := by
  have hwhole : (expr (.unary op s e)).Inside s.first (expr e).span.last :=
    .row rfl (.cons (operator hs) hmid (.single he.toLast)) .nil
  exact hwhole.mono (Int.le_refl _) he.last

theorem binary {op : BinaryOp} {l r : Expr} (hl : (expr l).Inside lo mid) (hlo : mid ≤ s.first)
    (hs : s.first ≤ s.last) (hhi : s.last ≤ mid')
    (hr : (expr r).Inside mid' hi) : (expr (.binary op s l r)).Inside lo hi := by
  have hwhole : (expr (.binary op s l r)).Inside (expr l).span.first (expr r).span.last :=
    .row rfl (.cons hl.fromFirst hlo (.cons (operator hs) hhi (.single hr.toLast))) .nil
  exact hwhole.mono hl.first hr.last

end Inside

section Operators

/-- Operators with their right operands on the lines from `lo` to `hi`, one after another. -/
inductive Operations : Int → Int → List ((BinaryOp × Span) × Expr) → Prop
  | nil {lo hi : Int} : lo ≤ hi → Operations lo hi []
  | cons {lo mid mid' hi : Int} {op s e rest} : lo ≤ s.first → s.first ≤ s.last → s.last ≤ mid →
      (expr e).Inside mid mid' → Operations mid' hi rest → Operations lo hi (((op, s), e) :: rest)

theorem Operations.split {xs ys : List ((BinaryOp × Span) × Expr)}
    (h : Operations lo hi (xs ++ ys)) : ∃ mid, Operations lo mid xs ∧ Operations mid hi ys := by
  induction xs generalizing lo with
  | nil => exact ⟨lo, .nil (Int.le_refl lo), h⟩
  | cons x xs ih =>
    cases h with
    | cons hlo hs hmid he h =>
      obtain ⟨m, hxs, hys⟩ := ih h
      exact ⟨m, .cons hlo hs hmid he hxs, hys⟩

/-- The tree of a sequence of operators stands where the sequence does. -/
theorem Inside.groups {t : Nat} {mid : Int} {a e : Expr} {rest : List ((BinaryOp × Span) × Expr)}
    (h : Precedence.Groups (fun op : BinaryOp × Span => op.1.priority)
      (fun op => Expr.binary op.1 op.2) t a rest e) (ha : (expr a).Inside lo mid)
    (hrest : Operations mid hi rest) : (expr e).Inside lo hi := by
  induction h generalizing lo mid hi with
  | term =>
    cases hrest with
    | nil hle => exact ha.mono (Int.le_refl _) hle
  | node _ _ _ ihl ihr =>
    obtain ⟨m, hleft, hright⟩ := hrest.split
    cases hright with
    | cons hlo hs hmid he hright =>
      exact (ihl ha hleft).binary hlo hs hmid (ihr he hright)

end Operators

end Phrase

end MiniJava
