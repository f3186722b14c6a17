import MiniJava.Proofs.Syntax.Grouping
import MiniJava.Token.Symbol
/-!
Trees of operators by splitting: the last operator that binds least is the top, and what stands to
its left and to its right is split in the same way. This is the tree that is built from a sequence,
and the only tree of the sequence in which a left operand binds at least as tightly as its parent
and a right operand more tightly.
-/
namespace MiniJava.Precedence

/-- A tree of operators over terms. -/
inductive Tree (ω α : Type) where
  | term (a : α)
  | node (op : ω) (left right : Tree ω α)
  deriving DecidableEq, Repr

variable {ω α : Type}

namespace Tree

/-- The operators from left to right. -/
def operators : Tree ω α → List ω
  | term _ => []
  | node op l r => l.operators ++ op :: r.operators

/-- The terms from left to right. -/
def terms : Tree ω α → List α
  | term a => [a]
  | node _ l r => l.terms ++ r.terms

/-- The operator that is applied last. -/
def top? : Tree ω α → Option ω
  | term _ => none
  | node op _ _ => some op

/-- What a tree makes of its terms. -/
def build (apply : ω → α → α → α) : Tree ω α → α
  | term a => a
  | node op l r => apply op (l.build apply) (r.build apply)

/-- A left operand binds at least as tightly as its parent, a right operand more tightly. -/
def Ordered (priority : ω → Nat) : Tree ω α → Prop
  | term _ => True
  | node op l r =>
    (∀ o ∈ l.top?, priority op ≤ priority o) ∧ (∀ o ∈ r.top?, priority op < priority o) ∧
      l.Ordered priority ∧ r.Ordered priority

end Tree

/-- The tree of operators and the terms around them: one term alone, or the trees to the left and to
the right of the last operator that binds least. -/
inductive Splits (priority : ω → Nat) : List ω → List α → Tree ω α → Prop
  | single {a} : Splits priority [] [a] (.term a)
  | atLowest {left op right as bs l r} : (∀ o ∈ left, priority op ≤ priority o) →
      (∀ o ∈ right, priority op < priority o) →
      Splits priority left as l → Splits priority right bs r →
        Splits priority (left ++ op :: right) (as ++ bs) (.node op l r)

variable {priority : ω → Nat} {ops : List ω} {as : List α} {t : Tree ω α}

theorem Splits.reading (h : Splits priority ops as t) : t.operators = ops ∧ t.terms = as := by
  induction h with
  | single => exact ⟨rfl, rfl⟩
  | atLowest _ _ _ _ ihl ihr =>
    rw [Tree.operators, Tree.terms, ihl.1, ihl.2, ihr.1, ihr.2]
    exact ⟨rfl, rfl⟩

theorem Tree.mem_operators_of_top? {op : ω} (h : op ∈ t.top?) : op ∈ t.operators := by
  cases t with
  | term => cases h
  | node op l r =>
    cases h
    exact List.mem_append_right _ List.mem_cons_self

theorem Splits.ordered (h : Splits priority ops as t) : t.Ordered priority := by
  induction h with
  | single => exact trivial
  | atLowest hleft hright hl hr ihl ihr =>
    refine ⟨fun o ho => hleft o ?_, fun o ho => hright o ?_, ihl, ihr⟩
    · exact hl.reading.1 ▸ Tree.mem_operators_of_top? ho
    · exact hr.reading.1 ▸ Tree.mem_operators_of_top? ho

/-- No operator of an ordered tree binds less tightly than the one at its top. -/
theorem Tree.Ordered.top_le (h : t.Ordered priority) {n : Nat} (hn : ∀ o ∈ t.top?, n ≤ priority o) :
    ∀ o ∈ t.operators, n ≤ priority o := by
  induction t generalizing n with
  | term => exact List.forall_mem_nil _
  | node op l r ihl ihr =>
    obtain ⟨hleft, hright, hl, hr⟩ := h
    have hop : n ≤ priority op := hn op rfl
    intro o ho
    rw [operators, List.mem_append, List.mem_cons] at ho
    rcases ho with ho | rfl | ho
    · exact ihl hl (fun o ho => Nat.le_trans hop (hleft o ho)) o ho
    · exact hop
    · exact ihr hr (fun o ho => Nat.le_trans hop (Nat.le_of_lt (hright o ho))) o ho

theorem Tree.Ordered.splits (h : t.Ordered priority) : Splits priority t.operators t.terms t := by
  induction t with
  | term => exact .single
  | node op l r ihl ihr =>
    obtain ⟨hleft, hright, hl, hr⟩ := h
    exact .atLowest (hl.top_le hleft) (hr.top_le hright) (ihl hl) (ihr hr)

/-- Operators with their right operands, as trees. -/
def asTrees (rest : List (ω × α)) : List (ω × Tree ω α) := rest.map fun x => (x.1, .term x.2)

theorem Groups.splits {n : Nat} {a : α} {rest : List (ω × α)}
    (h : Groups priority Tree.node n (.term a) (asTrees rest) t) :
    Splits priority (rest.map Prod.fst) (a :: rest.map Prod.snd) t ∧ ∀ o ∈ rest.map Prod.fst,
      n ≤ priority o := by
  generalize hfirst : Tree.term a = first, hrest : asTrees rest = trees at h
  induction h generalizing a rest with
  | term =>
    obtain rfl := List.map_eq_nil_iff.mp hrest
    exact hfirst ▸ ⟨.single, List.forall_mem_nil _⟩
  | @node n op first b left right l r hn hl hr ihl ihr =>
    obtain ⟨ls, rs', rfl, hls, hrs'⟩ := List.map_eq_append_iff.mp hrest
    obtain ⟨⟨_, b'⟩, rs, rfl, hb, hrs⟩ := List.map_eq_cons_iff.mp hrs'
    cases hb
    obtain ⟨hleft, hlower⟩ := ihl hfirst hls
    obtain ⟨hright, hupper⟩ := ihr rfl hrs
    rw [List.map_append, List.map_append]
    refine ⟨.atLowest hlower hupper hleft hright, ?_⟩
    intro o ho
    rw [List.mem_append, List.map_cons, List.mem_cons] at ho
    rcases ho with ho | rfl | ho
    · exact Nat.le_trans hn (hlower o ho)
    · exact hn
    · exact Nat.le_trans hn (Nat.le_of_succ_le (hupper o ho))

theorem Splits.groups (h : Splits priority ops as t) :
    ∃ a rest, as = a :: rest.map Prod.snd ∧ ops = rest.map Prod.fst ∧
      ∀ n, (∀ o ∈ ops, n ≤ priority o) →
      Groups priority Tree.node n (.term a) (asTrees rest) t := by
  induction h with
  | single => exact ⟨_, [], rfl, rfl, fun _ _ => .term⟩
  | @atLowest left op right as bs l r hleft hright _ _ ihl ihr =>
    obtain ⟨a, ls, rfl, rfl, hl⟩ := ihl
    obtain ⟨b, rs, rfl, rfl, hr⟩ := ihr
    refine ⟨a, ls ++ (op, b) :: rs, by simp, by simp, fun n hn => ?_⟩
    rw [asTrees, List.map_append, List.map_cons]
    exact .node (hn op (List.mem_append_right _ List.mem_cons_self)) (hl _ hleft) (hr _ hright)

theorem Splits.unique {u : Tree ω α} (ht : Splits priority ops as t)
    (hu : Splits priority ops as u) : t = u := by
  obtain ⟨a, rest, rfl, rfl, hgroups⟩ := ht.groups
  obtain ⟨b, rest', has, hops, hgroups'⟩ := hu.groups
  obtain ⟨rfl, hterms⟩ := List.cons.inj has
  obtain rfl : rest = rest' := (List.zip_of_prod hops hterms).trans (List.zip_of_prod rfl rfl).symm
  have hzero : ∀ o ∈ rest.map Prod.fst, 0 ≤ priority o := fun _ _ => Nat.zero_le _
  exact (tree_eq_iff.mpr (hgroups 0 hzero)).symm.trans (tree_eq_iff.mpr (hgroups' 0 hzero))

/-- Climbing takes all operators after a term and builds the tree that splits them. -/
theorem exists_splits (priority : ω → Nat) (apply : ω → α → α → α) (a : α) (rest : List (ω × α)) :
    ∃ t r, Splits priority (rest.map Prod.fst) (a :: rest.map Prod.snd) t ∧
      climb priority apply (rest.map Prod.fst).toArray (a :: rest.map Prod.snd).toArray 0 0 =
        .ok r ∧
      r.next = rest.length ∧ r.tree = t.build apply := by
  have hgroups : Groups priority Tree.node 0 (.term a) (asTrees rest) _ := tree_eq_iff.mp rfl
  have hbuild : Groups priority apply 0 a _ _ :=
    hgroups.map (g := id) (f := Tree.build apply) (fun _ => rfl) fun _ _ _ => rfl
  have hrest : (asTrees rest).map (fun x => (id x.1, x.2.build apply)) = rest := by
    rw [asTrees, List.map_map]
    exact List.map_id rest
  rw [hrest] at hbuild
  obtain ⟨r, hr, hnext, htree⟩ := climb_eq_ok priority apply a rest
  exact ⟨_, r, hgroups.splits.1, hr, hnext, htree.unique hbuild⟩

/-- From operators and one term more, climbing builds a tree without an access outside the terms,
and takes all operators. The tree is the one that splits them at the last operator that binds least,
and the only ordered tree with these operators and terms. A spelling that is no operator binds least
of all. -/
theorem climb_splits (apply : String → α → α → α) {ops : List String} {as : List α}
    (h : as.length = ops.length + 1) :
    ∃ (t : Tree String α) (r : Climbed BinaryOp.priorityOf ops.toArray α 0 0),
      climb BinaryOp.priorityOf apply ops.toArray as.toArray 0 0 = .ok r ∧ r.next = ops.length ∧
      build BinaryOp.priorityOf apply ops.toArray as.toArray = .ok (t.build apply) ∧
      (∀ u, Splits BinaryOp.priorityOf ops as u ↔ u = t) ∧
      ∀ u, (u.operators = ops ∧ u.terms = as ∧ u.Ordered BinaryOp.priorityOf) ↔ u = t := by
  cases as with
  | nil => cases h
  | cons a as =>
    have hlength : as.length = ops.length := Nat.succ.inj h
    obtain ⟨t, r, hsplits, hr, hnext, htree⟩ :=
      exists_splits BinaryOp.priorityOf apply a (ops.zip as)
    have hfst : (ops.zip as).map Prod.fst = ops := List.map_fst_zip (Nat.le_of_eq hlength.symm)
    have hsnd : (ops.zip as).map Prod.snd = as := List.map_snd_zip (Nat.le_of_eq hlength)
    rw [List.length_zip, hlength, Nat.min_self] at hnext
    generalize (ops.zip as).map Prod.fst = ops' at hfst hsplits r hr hnext htree
    subst hfst
    rw [hsnd] at hsplits hr
    refine ⟨t, r, hr, hnext, ?_, ?_, ?_⟩
    · rw [build, hr, ← htree]
      rfl
    · exact fun u => ⟨fun hu => hu.unique hsplits, fun hu => hu ▸ hsplits⟩
    · intro u
      constructor
      · rintro ⟨rfl, hterms, hordered⟩
        exact (hterms ▸ hordered.splits).unique hsplits
      · rintro rfl
        exact ⟨hsplits.reading.1, hsplits.reading.2, hsplits.ordered⟩

/-- `a - b * c ? d < e - f`, where `?` is no operator. -/
theorem risingAndFalling_splits :
    let term : String → Tree String String := .term
    let apply : String → Tree String String → Tree String String → Tree String String := .node
    let ops := ["-", "*", "?", "<", "-"]
    let as := ["a", "b", "c", "d", "e", "f"].map term
    as.length = ops.length + 1 ∧
      (build BinaryOp.priorityOf apply ops.toArray as.toArray).toOption =
        some (.node "?" (.node "-" (term "a") (.node "*" (term "b") (term "c")))
          (.node "<" (term "d") (.node "-" (term "e") (term "f")))) ∧
      ∃ (t : Tree String (Tree String String))
        (r : Climbed BinaryOp.priorityOf ops.toArray (Tree String String) 0 0),
        climb BinaryOp.priorityOf apply ops.toArray as.toArray 0 0 = .ok r ∧ r.next = ops.length ∧
        build BinaryOp.priorityOf apply ops.toArray as.toArray = .ok (t.build apply) ∧
        (∀ u, Splits BinaryOp.priorityOf ops as u ↔ u = t) ∧
        ∀ u, (u.operators = ops ∧ u.terms = as ∧ u.Ordered BinaryOp.priorityOf) ↔ u = t :=
  ⟨rfl, by decide +kernel, climb_splits _ rfl⟩

end MiniJava.Precedence
