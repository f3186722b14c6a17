/-!
Operator trees from flat sequences of terms and operators, by precedence climbing. The terms stand
in slots, and a tree that has been built takes the slot of its last term.
-/
namespace MiniJava.Precedence

variable {ω α : Type} (priority : ω → Nat) (node : ω → α → α → α)

structure IndexFault where
  index : Nat
  size : Nat
  deriving DecidableEq, Repr

def termAt (terms : Array α) (i : Nat) : Except IndexFault α :=
  if h : i < terms.size then .ok terms[i] else .error ⟨i, terms.size⟩

def setTerm (terms : Array α) (i : Nat) (a : α) : Except IndexFault (Array α) :=
  if h : i < terms.size then .ok (terms.set i a) else .error ⟨i, terms.size⟩

/-- The operator at `i`, if there is one that binds at least as tightly as `least`. -/
def operator? (ops : Array ω) (i least : Nat) : Option ω :=
  ops[i]?.filter fun op => least ≤ priority op

section

variable {ops : Array ω} {i least : Nat} {op : ω}

theorem operator?_eq_some :
    operator? priority ops i least = some op ↔ ops[i]? = some op ∧ least ≤ priority op := by
  rw [operator?, Option.filter_eq_some_iff, decide_eq_true_iff]

theorem lt_of_operator? (h : operator? priority ops i least = some op) : i < ops.size :=
  (Array.getElem?_eq_some_iff.mp ((operator?_eq_some priority).mp h).1).1

theorem operator?_priority (h : operator? priority ops i least = some op) :
    operator? priority ops i (priority op) ≠ none := by
  obtain ⟨hget, -⟩ := (operator?_eq_some priority).mp h
  rw [(operator?_eq_some priority).mpr ⟨hget, Nat.le_refl _⟩]
  exact Option.some_ne_none op

end

/-- What is built from the operators from `i` on that bind at least as tightly as `least`: the tree,
the first operator that is not in it, and the slots afterwards. -/
structure Climbed (ops : Array ω) (α : Type) (i least : Nat) where
  tree : α
  next : Nat
  terms : Array α
  le : i ≤ next
  lt : operator? priority ops i least ≠ none → i < next

mutual

/-- Builds the tree that starts in slot `loc`. -/
def climb (ops : Array ω) (terms : Array α) (loc least : Nat) :
    Except IndexFault (Climbed priority ops α loc least) := do
  let left ← termAt terms loc
  extend ops terms left loc least
termination_by 3 * (ops.size - loc) + 1

/-- Applies operators to the tree on their left, as long as they bind tightly enough. -/
def extend (ops : Array ω) (terms : Array α) (left : α) (i least : Nat) :
    Except IndexFault (Climbed priority ops α i least) :=
  match h : operator? priority ops i least with
  | none => return ⟨left, i, terms, Nat.le_refl i, fun hne => absurd h hne⟩
  | some op => do
    let right ← termAt terms (i + 1)
    let r ← operand ops terms right (i + 1) (priority op)
    let tree := node op left r.tree
    let terms ← setTerm r.terms r.next tree
    have hr := r.le
    let s ← extend ops terms tree r.next least
    have hs := s.le
    return ⟨s.tree, s.next, s.terms, by omega, by omega⟩
termination_by 3 * (ops.size - i)
decreasing_by
  · have := lt_of_operator? priority h
    omega
  · have := lt_of_operator? priority h
    omega

/-- Lets a right operand take the operators after it that bind more tightly than `p`. -/
def operand (ops : Array ω) (terms : Array α) (right : α) (j p : Nat) :
    Except IndexFault (Climbed priority ops α j (p + 1)) :=
  match h : operator? priority ops j (p + 1) with
  | none => return ⟨right, j, terms, Nat.le_refl j, fun hne => absurd h hne⟩
  | some op => do
    let r ← climb ops terms j (priority op)
    have hr := r.lt (operator?_priority priority h)
    let s ← operand ops r.terms r.tree r.next p
    have hs := s.le
    return ⟨s.tree, s.next, s.terms, by omega, by omega⟩
termination_by 3 * (ops.size - j) + 2
decreasing_by
  · omega
  · have := lt_of_operator? priority h
    omega

end

/-- The tree of the operators between the terms. Terms that are left over are ignored. -/
def build (ops : Array ω) (terms : Array α) : Except IndexFault α := do
  return (← climb priority node ops terms 0 0).tree

def tree (first : α) (rest : List (ω × α)) : α :=
  match build priority node (rest.map (·.1)).toArray (first :: rest.map (·.2)).toArray with
  | .ok t => t
  | .error _ => first

end MiniJava.Precedence
