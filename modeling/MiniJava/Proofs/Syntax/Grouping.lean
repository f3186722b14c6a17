import MiniJava.Syntax.Precedence
/-!
Which tree groups a sequence of terms and operators: operators nearer to the leaves bind more
tightly, and operators of one priority group to the left. There is one such tree, and climbing
builds it.
-/
namespace MiniJava.Precedence

variable {ω α : Type}

/-- A tree of a term and the operators after it, none of which binds less tightly than `t`. The
operators of the left operand bind at least as tightly as the operator between, those of the right
operand more tightly. -/
inductive Groups (priority : ω → Nat) (node : ω → α → α → α) : Nat → α → List (ω × α) → α → Prop
  | term {t a} : Groups priority node t a [] a
  | node {t op a b left right l r} : t ≤ priority op → Groups priority node (priority op) a left l →
      Groups priority node (priority op + 1) b right r →
      Groups priority node t a (left ++ (op, b) :: right) (node op l r)

variable {priority : ω → Nat} {node : ω → α → α → α} {t : Nat} {a e : α} {rest : List (ω × α)}

theorem Groups.weaken {s : Nat} (h : Groups priority node t a rest e) (hs : s ≤ t) :
    Groups priority node s a rest e := by
  cases h with
  | term => exact .term
  | node ht hl hr => exact .node (Nat.le_trans hs ht) hl hr

theorem Groups.bounded (h : Groups priority node t a rest e) : ∀ x ∈ rest, t ≤ priority x.1 := by
  induction h with
  | term => exact List.forall_mem_nil _
  | node ht hl hr ihl ihr =>
    intro x hx
    rcases List.mem_append.mp hx with hx | hx
    · exact Nat.le_trans ht (ihl x hx)
    · rcases List.mem_cons.mp hx with rfl | hx
      · exact ht
      · exact Nat.le_trans ht (Nat.le_of_succ_le (ihr x hx))

theorem eq_nil_of_lowest {right right' gap : List (ω × α)} {x x' : ω × α}
    (h : x :: right = gap ++ x' :: right') (hgap : ∀ y ∈ gap, priority x'.1 ≤ priority y.1)
    (hright : ∀ y ∈ right, priority x.1 < priority y.1) : gap = [] := by
  cases gap with
  | nil => rfl
  | cons y gap =>
    obtain ⟨rfl, rfl⟩ := List.cons.inj h
    have hle := hgap x List.mem_cons_self
    have hlt := hright x' (List.mem_append_right _ List.mem_cons_self)
    omega

theorem lowest_unique {left left' right right' : List (ω × α)} {x x' : ω × α}
    (h : left ++ x :: right = left' ++ x' :: right')
    (hleft : ∀ y ∈ left, priority x.1 ≤ priority y.1)
    (hright : ∀ y ∈ right, priority x.1 < priority y.1)
    (hleft' : ∀ y ∈ left', priority x'.1 ≤ priority y.1)
    (hright' : ∀ y ∈ right', priority x'.1 < priority y.1) :
    left = left' ∧ x = x' ∧ right = right' := by
  rcases List.append_eq_append_iff.mp h with ⟨gap, rfl, hgap⟩ | ⟨gap, rfl, hgap⟩
  · obtain rfl := eq_nil_of_lowest hgap (fun y hy => hleft' y (List.mem_append_right _ hy)) hright
    obtain ⟨rfl, rfl⟩ := List.cons.inj hgap
    exact ⟨(List.append_nil left).symm, rfl, rfl⟩
  · obtain rfl := eq_nil_of_lowest hgap (fun y hy => hleft y (List.mem_append_right _ hy)) hright'
    obtain ⟨rfl, rfl⟩ := List.cons.inj hgap
    exact ⟨List.append_nil left', rfl, rfl⟩

theorem Groups.unique {s : Nat} {e' : α} (h : Groups priority node t a rest e)
    (h' : Groups priority node s a rest e') : e = e' := by
  induction h generalizing s e' with
  | term =>
    generalize hrest : [] = rest at h'
    cases h' with
    | term => rfl
    | node => cases List.append_ne_nil_of_right_ne_nil _ (List.cons_ne_nil _ _) hrest.symm
  | @node t op a b left right l r ht hl hr ihl ihr =>
    generalize hrest : left ++ (op, b) :: right = rest at h'
    cases h' with
    | term => cases List.append_ne_nil_of_right_ne_nil _ (List.cons_ne_nil _ _) hrest
    | node ht' hl' hr' =>
      obtain ⟨rfl, hx, rfl⟩ := lowest_unique hrest hl.bounded hr.bounded hl'.bounded hr'.bounded
      cases hx
      rw [ihl hl', ihr hr']

/-- A sequence that starts with a tree is grouped with the sequence of that tree, if the first
operator after the tree does not bind more tightly than those in it. -/
theorem Groups.graft {s : Nat} {b : α} {more : List (ω × α)} (h : Groups priority node s a rest b)
    (hmore : Groups priority node t b more e) (hts : t ≤ s)
    (hfirst : ∀ x ∈ more.head?, priority x.1 ≤ s) : Groups priority node t a (rest ++ more) e := by
  induction hmore with
  | term =>
    rw [List.append_nil]
    exact h.weaken hts
  | @node t op b c left right l r ht hl hr ihl _ =>
    have hop : priority op ≤ s := by
      cases left with
      | nil => exact hfirst _ rfl
      | cons x left => exact Nat.le_trans (hl.bounded x List.mem_cons_self) (hfirst x rfl)
    have hleft : ∀ x ∈ left.head?, priority x.1 ≤ s := by
      cases left with
      | nil => exact fun x hx => by cases hx
      | cons x left => exact hfirst
    rw [← List.append_assoc]
    exact .node ht (ihl h hop hleft) hr

/-- Slot `i` of the terms holds `e`, and the operators and terms that follow are `rest`. -/
structure Stands (ops : Array ω) (terms : Array α) (i : Nat) (e : α)
    (rest : List (ω × α)) : Prop where
  operators : ops.toList.drop i = rest.map Prod.fst
  slots : terms.toList.drop i = e :: rest.map Prod.snd

variable {ops : Array ω} {terms : Array α} {i : Nat}

namespace Stands

theorem getElem? (h : Stands ops terms i e rest) : ops[i]? = rest.head?.map Prod.fst := by
  rw [← Array.getElem?_toList, ← List.head?_drop, h.operators, List.head?_map]

theorem termAt (h : Stands ops terms i e rest) : termAt terms i = .ok e := by
  have hslot : terms[i]? = some e := by
    rw [← Array.getElem?_toList, ← List.head?_drop, h.slots, List.head?_cons]
  obtain ⟨hlt, rfl⟩ := Array.getElem?_eq_some_iff.mp hslot
  exact dif_pos hlt

theorem lt_size (h : Stands ops terms i e rest) : i < terms.size := by
  have := congrArg List.length h.slots
  simp at this
  omega

theorem setTerm (h : Stands ops terms i e rest) (b : α) :
    ∃ terms', Precedence.setTerm terms i b = .ok terms' ∧ Stands ops terms' i b rest := by
  refine ⟨_, dif_pos h.lt_size, h.operators, ?_⟩
  rw [Array.toList_set, List.drop_set, if_neg (Nat.lt_irrefl i), Nat.sub_self, h.slots,
    List.set_cons_zero]

theorem next {op : ω} {b : α}
    (h : Stands ops terms i e ((op, b) :: rest)) : Stands ops terms (i + 1) b rest := by
  constructor
  · rw [← List.tail_drop, h.operators]
    rfl
  · rw [← List.tail_drop, h.slots]
    rfl

theorem lt_of_none {least : Nat} (h : Stands ops terms i e rest)
    (hop : operator? priority ops i least = none) : ∀ y ∈ rest.head?, priority y.1 < least := by
  intro y hy
  have hget : ops[i]? = some y.1 := by rw [h.getElem?, Option.mem_def.mp hy, Option.map_some]
  refine Nat.lt_of_not_le fun hle => ?_
  cases hop.symm.trans ((operator?_eq_some priority).mpr ⟨hget, hle⟩)

theorem exists_cons {least : Nat} {op : ω} (h : Stands ops terms i e rest)
    (hop : operator? priority ops i least = some op) :
    ∃ b rest', rest = (op, b) :: rest' ∧ least ≤ priority op := by
  obtain ⟨hget, hle⟩ := (operator?_eq_some priority).mp hop
  rw [h.getElem?] at hget
  cases rest with
  | nil => cases hget
  | cons x rest =>
    cases hget
    exact ⟨x.2, rest, rfl, hle⟩

end Stands

/-- Building succeeds with a tree of the first operators of `rest`, of which `P` holds. The tree
stands in its slot, before an operator that does not bind tightly enough. -/
def Takes {least : Nat} (x : Except IndexFault (Climbed priority ops α i least))
    (rest : List (ω × α)) (P : List (ω × α) → α → Prop) : Prop :=
  ∃ r used left, x = .ok r ∧ rest = used ++ left ∧ r.next = i + used.length ∧
    Stands ops r.terms r.next r.tree left ∧ (∀ y ∈ left.head?, priority y.1 < least) ∧ P used r.tree

mutual

theorem climb_takes {terms : Array α} {i : Nat} {e : α} {rest : List (ω × α)}
    (h : Stands ops terms i e rest) (least : Nat) :
    Takes (climb priority node ops terms i least) rest fun used tree =>
      Groups priority node least e used tree := by
  have hbound : ∃ s, least ≤ s ∧ ∀ x ∈ rest.head?, priority x.1 ≤ s := by
    cases rest with
    | nil => exact ⟨least, Nat.le_refl _, by simp⟩
    | cons x rest =>
      refine ⟨max least (priority x.1), Nat.le_max_left _ _, fun y hy => ?_⟩
      cases hy
      exact Nat.le_max_right _ _
  obtain ⟨s, hs, hnext⟩ := hbound
  have hterm : Groups priority node s e [] e := .term
  rw [climb, h.termAt]
  exact extend_takes h hterm hs hnext
termination_by 3 * (ops.size - i) + 1

theorem extend_takes {terms : Array α} {i s least : Nat} {e left : α} {before rest : List (ω × α)}
    (h : Stands ops terms i left rest) (hleft : Groups priority node s e before left)
    (hs : least ≤ s) (hnext : ∀ x ∈ rest.head?, priority x.1 ≤ s) :
    Takes (extend priority node ops terms left i least) rest
      fun used tree => Groups priority node least e (before ++ used) tree := by
  rw [extend]
  split
  · rename_i hop
    have hstop : Groups priority node least e (before ++ []) left :=
      (List.append_nil before).symm ▸ hleft.weaken hs
    exact ⟨_, [], rest, rfl, rfl, rfl, h, h.lt_of_none hop, hstop⟩
  · rename_i op hop
    obtain ⟨b, rest, rfl, hle⟩ := h.exists_cons hop
    have hlt := lt_of_operator? priority hop
    obtain ⟨r, used, rest, hr, rfl, hcount, hstands, hrest, hright⟩ :=
      operand_takes h.next (priority op)
    obtain ⟨terms', hset, hstands'⟩ := hstands.setTerm (node op left r.tree)
    have hnode :
        Groups priority node (priority op) e (before ++ (op, b) :: used) (node op left r.tree) :=
      .node (Nat.le_refl _) (hleft.weaken (hnext _ rfl)) hright
    have hle' := r.le
    obtain ⟨s, used', rest, hs', rfl, hcount', hstands'', hrest', htree⟩ :=
      extend_takes hstands' hnode hle fun x hx => Nat.le_of_lt_succ (hrest x hx)
    simp only [h.next.termAt, hr, hset, hs', bind, Except.bind, pure, Except.pure]
    refine ⟨_, (op, b) :: (used ++ used'), rest, rfl, by simp, ?_, hstands'', hrest', by
      simpa using htree⟩
    simp only [hcount', hcount, List.length_cons, List.length_append]
    omega
termination_by 3 * (ops.size - i) + 0

theorem operand_takes {terms : Array α} {i : Nat} {e : α} {rest : List (ω × α)}
    (h : Stands ops terms i e rest) (p : Nat) :
    Takes (operand priority node ops terms e i p) rest fun used tree =>
      Groups priority node (p + 1) e used tree := by
  rw [operand]
  split
  · rename_i hop
    exact ⟨_, [], rest, rfl, rfl, rfl, h, h.lt_of_none hop, .term⟩
  · rename_i op hop
    obtain ⟨b, rest', hrest, hle⟩ := h.exists_cons hop
    have hlt := lt_of_operator? priority hop
    obtain ⟨r, used, left, hr, hused, hcount, hstands, hleft, hgroups⟩ :=
      climb_takes h (priority op)
    have hnext : i < r.next := r.lt (operator?_priority priority hop)
    obtain ⟨s, used', left', hs, rfl, hcount', hstands', hleft', hgroups'⟩ :=
      operand_takes hstands p
    simp only [hr, hs, bind, Except.bind, pure, Except.pure]
    have hsum : s.next = i + (used ++ used').length := by
      rw [hcount', hcount, List.length_append, Nat.add_assoc]
    refine ⟨_, used ++ used', left', rfl, by rw [hused, List.append_assoc], hsum, hstands', hleft',
      ?_⟩
    refine hgroups.graft hgroups' hle fun x hx => Nat.le_of_lt (hleft x ?_)
    rw [List.head?_append, Option.mem_def.mp hx, Option.some_or]
    exact rfl
termination_by 3 * (ops.size - i) + 2

end

theorem climb_eq_ok (priority : ω → Nat) (node : ω → α → α → α) (a : α) (rest : List (ω × α)) :
    ∃ r, climb priority node (rest.map (·.1)).toArray (a :: rest.map (·.2)).toArray 0 0 = .ok r ∧
      r.next = rest.length ∧ Groups priority node 0 a rest r.tree := by
  have hstands : Stands (rest.map (·.1)).toArray (a :: rest.map (·.2)).toArray 0 a rest :=
    ⟨rfl, rfl⟩
  obtain ⟨r, used, left, hr, hused, hcount, -, hnone, hgroups⟩ := climb_takes hstands 0
  cases left with
  | cons x left => exact absurd (hnone x rfl) (Nat.not_lt_zero _)
  | nil =>
    rw [List.append_nil] at hused
    subst hused
    exact ⟨r, hr, hcount.trans (Nat.zero_add _), hgroups⟩

/-- The tree that is built is the one that groups the sequence. -/
theorem tree_eq_iff : tree priority node a rest = e ↔ Groups priority node 0 a rest e := by
  obtain ⟨r, hr, -, hgroups⟩ := climb_eq_ok priority node a rest
  have htree : tree priority node a rest = r.tree := by
    rw [tree, build, hr]
    rfl
  rw [htree]
  exact ⟨fun h => h ▸ hgroups, hgroups.unique⟩

theorem Groups.map {ω' α' : Type} {priority' : ω' → Nat} {node' : ω' → α' → α' → α'} {g : ω → ω'}
    {f : α → α'} (hp : ∀ op, priority' (g op) = priority op)
    (hf : ∀ op l r, f (node op l r) = node' (g op) (f l) (f r))
    (h : Groups priority node t a rest e) :
    Groups priority' node' t (f a) (rest.map fun x => (g x.1, f x.2)) (f e) := by
  induction h with
  | term => exact .term
  | @node t op a b left right l r ht hl hr ihl ihr =>
    rw [List.map_append, List.map_cons, hf]
    exact .node ((hp op).symm ▸ ht) ((hp op).symm ▸ ihl) ((hp op).symm ▸ ihr)

end MiniJava.Precedence
