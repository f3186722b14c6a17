import MiniJava.Scope.Table
/-!
The history of a scope table. What a table finds is told from the operations that led to it: a
declaration is in force if it was entered and the scope that it was entered in has not been closed
since, and of several in force for a name the latest one is found.
-/
namespace MiniJava

variable {δ : Type}

/-- An operation on a scope table. -/
inductive ScopeOp (δ : Type) where
  | openScope
  | closeScope
  | enter (name : String) (d : δ)

/-- Scopes, and the declarations that were refused as duplicates, the latest first. -/
structure ScopeTable (δ : Type) where
  scopes : Scopes δ
  flagged : List δ

namespace ScopeTable

def new : ScopeTable δ := ⟨.new, []⟩

/-- The table after an operation. The outermost scope cannot be closed. -/
def step (t : ScopeTable δ) : ScopeOp δ → Option (ScopeTable δ)
  | .openScope => some { t with scopes := t.scopes.openScope }
  | .closeScope =>
    if t.scopes.depth ≤ 0 then none
    else
      match t.scopes.closeScope with
      | .ok scopes => some { t with scopes }
      | .error _ => none
  | .enter name d =>
    match t.scopes.enter name d with
    | .ok (some scopes) => some { t with scopes }
    | .ok none => some { t with flagged := d :: t.flagged }
    | .error _ => none

def run (t : ScopeTable δ) : List (ScopeOp δ) → Option (ScopeTable δ)
  | [] => some t
  | op :: ops => (t.step op).bind (run · ops)

/-- What an operation can do. -/
inductive Steps : ScopeTable δ → ScopeOp δ → ScopeTable δ → Prop
  | opened {levels declaring flagged} :
    Steps ⟨⟨levels, declaring⟩, flagged⟩ .openScope ⟨⟨[] :: levels, declaring⟩, flagged⟩
  | closed {inner outer declaring flagged} : outer ≠ [] →
    Steps ⟨⟨inner :: outer, declaring⟩, flagged⟩ .closeScope ⟨⟨outer, declaring⟩, flagged⟩
  | refused {inner outer declaring flagged name d} :
      Scopes.isTaken ⟨inner :: outer, declaring⟩ name = true →
    Steps ⟨⟨inner :: outer, declaring⟩, flagged⟩ (.enter name d) ⟨⟨inner :: outer, declaring⟩,
      d :: flagged⟩
  | entered {inner outer declaring flagged name d} :
      Scopes.isTaken ⟨inner :: outer, declaring⟩ name = false →
    Steps ⟨⟨inner :: outer, declaring⟩, flagged⟩ (.enter name d)
      ⟨⟨((name, d) :: inner) :: outer, declaring⟩, flagged⟩

theorem step_eq_some_iff {t u : ScopeTable δ}
    {op : ScopeOp δ} : t.step op = some u ↔ Steps t op u := by
  obtain ⟨⟨levels, declaring⟩, flagged⟩ := t
  constructor
  · intro h
    cases op with
    | openScope =>
      cases h
      exact .opened
    | closeScope =>
      cases levels with
      | nil => cases h
      | cons inner outer =>
        cases outer with
        | nil => cases h
        | cons next outer =>
          have hdepth : ¬ Scopes.depth ⟨inner :: next :: outer, declaring⟩ ≤ 0 := by
            simp only [Scopes.depth, List.length_cons]
            omega
          rw [step, if_neg hdepth] at h
          cases h
          exact .closed (List.cons_ne_nil next outer)
    | enter name d =>
      cases levels with
      | nil => cases h
      | cons inner outer =>
        by_cases htaken : Scopes.isTaken ⟨inner :: outer, declaring⟩ name = true
        · simp only [step, Scopes.enter, htaken, if_true] at h
          cases h
          exact .refused htaken
        · simp only [step, Scopes.enter, htaken] at h
          cases h
          exact .entered (by simpa using htaken)
  · intro h
    cases h with
    | opened => rfl
    | @closed inner outer _ _ hne =>
      have hdepth : ¬ Scopes.depth ⟨inner :: outer, declaring⟩ ≤ 0 := by
        have hlength := List.length_pos_iff.mpr hne
        simp only [Scopes.depth, List.length_cons]
        omega
      rw [step, if_neg hdepth]
      rfl
    | refused htaken => simp only [step, Scopes.enter, htaken, if_true]
    | entered htaken => simp [step, Scopes.enter, htaken]

theorem run_append (t : ScopeTable δ) (xs ys : List (ScopeOp δ)) :
    t.run (xs ++ ys) = (t.run xs).bind (run · ys) := by
  induction xs generalizing t with
  | nil => rfl
  | cons op xs ih =>
    rw [List.cons_append, run, run]
    cases t.step op with
    | none => rfl
    | some u => exact ih u

theorem run_concat_eq_some {t u : ScopeTable δ} {ops : List (ScopeOp δ)} {op : ScopeOp δ} :
    t.run (ops ++ [op]) = some u ↔ ∃ s, t.run ops = some s ∧ Steps s op u := by
  rw [run_append, Option.bind_eq_some_iff]
  simp only [run, Option.bind_fun_some, step_eq_some_iff]

theorem run_induction {P : List (ScopeOp δ) → ScopeTable δ → Prop} (hnew : P [] new)
    (hstep : ∀ {ops t op u}, new.run ops = some t → P ops t → Steps t op u → P (ops ++ [op]) u)
    {ops : List (ScopeOp δ)} {t : ScopeTable δ} (h : new.run ops = some t) : P ops t := by
  suffices hrest : ∀ (rest pre : List (ScopeOp δ)) (s : ScopeTable δ), new.run pre = some s →
      P pre s →
      s.run rest = some t → P (pre ++ rest) t from hrest ops [] new rfl hnew h
  intro rest
  induction rest with
  | nil =>
    intro pre s _ hs hrun
    cases hrun
    rwa [List.append_nil]
  | cons op rest ih =>
    intro pre s hpre hs hrun
    obtain ⟨u, hu, hrun⟩ := Option.bind_eq_some_iff.mp hrun
    have hsteps := step_eq_some_iff.mp hu
    have hnext :=
      ih (pre ++ [op]) u (run_concat_eq_some.mpr ⟨s, hpre, hsteps⟩) (hstep hpre hs hsteps) hrun
    rwa [List.append_assoc] at hnext

end ScopeTable

namespace Scopes

variable {s : Scopes δ} {inner : Level δ} {outer : List (Level δ)} {declaring : Option String}
  {level : Nat} {name : String}

/-- A level counted from outside is the innermost one or one of those around it. -/
theorem findAt?_cons : findAt? ⟨inner :: outer, declaring⟩ level name =
    if level = outer.length then inner.lookup name else findAt? ⟨outer, declaring⟩ level name := by
  simp only [findAt?, List.reverse_cons]
  by_cases heq : level = outer.length
  · subst heq
    simp
  · rw [if_neg heq]
    by_cases hlt : level < outer.length
    · rw [List.getElem?_append_left (by simpa using hlt)]
    · rw [List.getElem?_eq_none (by simp; omega), List.getElem?_eq_none (by simp; omega)]

theorem findAt?_eq_none (h : s.levels.length ≤ level) : s.findAt? level name = none := by
  rw [findAt?, List.getElem?_eq_none (by simpa using h)]
  rfl

theorem lt_length_of_findAt? (h : (s.findAt? level name).isSome) : level < s.levels.length := by
  apply Nat.lt_of_not_le
  intro hle
  rw [findAt?_eq_none hle] at h
  cases h

theorem findAt?_open :
    findAt? ⟨[] :: outer, declaring⟩ level name = findAt? ⟨outer, declaring⟩ level name := by
  rw [findAt?_cons]
  split
  · rename_i heq
    rw [findAt?_eq_none (Nat.le_of_eq heq.symm)]
    rfl
  · rfl

theorem findAt?_entered {name' : String} {e : δ} :
    findAt? ⟨((name', e) :: inner) :: outer, declaring⟩ level name = if level = outer.length ∧
      name = name' then some e else findAt? ⟨inner :: outer, declaring⟩ level name := by
  rw [findAt?_cons, findAt?_cons]
  by_cases hlevel : level = outer.length
  · by_cases hname : name = name'
    · subst hname
      rw [if_pos hlevel, if_pos ⟨hlevel, rfl⟩, List.lookup_cons_self]
    · have hbeq : (name == name') = false := by simpa using hname
      rw [if_pos hlevel, if_neg fun h => hname h.2, if_pos hlevel, List.lookup_cons, hbeq]
  · rw [if_neg hlevel, if_neg fun h => hlevel h.1, if_neg hlevel]

/-- What is found is found at the innermost level that has the name. -/
theorem find?_eq_some_iff {d : δ} :
    s.find? name = some d ↔ ∃ level, s.findAt? level name = some d ∧ ∀ higher, level < higher →
      s.findAt? higher name = none := by
  obtain ⟨levels, declaring⟩ := s
  induction levels with
  | nil => simp [find?, findAt?]
  | cons inner outer ih =>
    have hfind :
        find? ⟨inner :: outer, declaring⟩ name =
          (inner.lookup name).or (find? ⟨outer, declaring⟩ name) := by
      simp only [find?, List.findSome?_cons]
      cases inner.lookup name <;> rfl
    rw [hfind]
    cases hinner : inner.lookup name with
    | some e =>
      have htop : findAt? ⟨inner :: outer, declaring⟩ outer.length name = some e := by
        rw [findAt?_cons, if_pos rfl, hinner]
      have hhigh (level : Nat) (hlevel : outer.length < level) :
          findAt? ⟨inner :: outer, declaring⟩ level name = none :=
        findAt?_eq_none hlevel
      constructor
      · intro h
        cases h
        exact ⟨outer.length, htop, hhigh⟩
      · rintro ⟨level, hlevel, hnone⟩
        rcases Nat.lt_trichotomy level outer.length with hlt | rfl | hgt
        · cases htop.symm.trans (hnone _ hlt)
        · exact htop.symm.trans hlevel
        · cases hlevel.symm.trans (hhigh level hgt)
    | none =>
      have hsame (level : Nat) : findAt? ⟨inner :: outer, declaring⟩ level name = findAt? ⟨outer,
          declaring⟩ level name := by
        rw [findAt?_cons]
        split
        · rename_i heq
          rw [hinner, findAt?_eq_none (Nat.le_of_eq heq.symm)]
        · rfl
      simp only [hsame]
      exact ih

/-- A declaration of the name at the current level or, among locals, at another level of locals. -/
def Clashes (s : Scopes δ) (name : String) : Prop :=
  ∃ level : Nat, (s.findAt? level name).isSome ∧ (level = s.depth ∨ 2 ≤ level ∧ 2 ≤ s.depth)

theorem exists_local_iff : (∃ l ∈ outer.take (outer.length - 2), (l.lookup name).isSome) ↔
    ∃ level, 2 ≤ level ∧ (findAt? ⟨outer, declaring⟩ level name).isSome := by
  induction outer with
  | nil => simp [findAt?]
  | cons o rest ih =>
    by_cases hrest : 2 ≤ rest.length
    · have htake :
          (o :: rest).take ((o :: rest).length - 2) = o :: rest.take (rest.length - 2) := by
        rw [List.length_cons, show rest.length + 1 - 2 = (rest.length - 2) + 1 by
          omega, List.take_succ_cons]
      simp only [htake, List.mem_cons, exists_eq_or_imp, ih]
      constructor
      · rintro (ho | ⟨level, hlevel, hsome⟩)
        · refine ⟨rest.length, hrest, ?_⟩
          rw [findAt?_cons, if_pos rfl]
          exact ho
        · refine ⟨level, hlevel, ?_⟩
          rw [findAt?_cons, if_neg (Nat.ne_of_lt (lt_length_of_findAt? hsome))]
          exact hsome
      · rintro ⟨level, hlevel, hsome⟩
        rw [findAt?_cons] at hsome
        split at hsome
        · exact .inl hsome
        · exact .inr ⟨level, hlevel, hsome⟩
    · have htake : (o :: rest).length - 2 = 0 := by
        rw [List.length_cons]
        omega
      rw [htake, List.take_zero]
      constructor
      · rintro ⟨l, hl, -⟩
        cases hl
      · rintro ⟨level, hlevel, hsome⟩
        have hlt : level < rest.length + 1 := lt_length_of_findAt? hsome
        omega

theorem isTaken_iff_clashes (h : s.levels ≠ []) : s.isTaken name = true ↔ s.Clashes name := by
  obtain ⟨levels, declaring⟩ := s
  obtain ⟨inner, outer, rfl⟩ := List.exists_cons_of_ne_nil h
  have hdepth : depth ⟨inner :: outer, declaring⟩ = outer.length := by
    rw [depth, List.length_cons]
    omega
  have htaken : isTaken ⟨inner :: outer, declaring⟩ name = true ↔
      (inner.lookup name).isSome = true ∨
      ∃ level, 2 ≤ level ∧ (findAt? ⟨outer, declaring⟩ level name).isSome := by
    rw [← exists_local_iff, isTaken, rivals, List.any_cons, Bool.or_eq_true, List.any_eq_true]
  rw [htaken, Clashes, hdepth]
  constructor
  · rintro (htop | ⟨level, hlevel, hsome⟩)
    · refine ⟨outer.length, ?_, .inl rfl⟩
      rw [findAt?_cons, if_pos rfl]
      exact htop
    · have hlt : level < outer.length := lt_length_of_findAt? hsome
      refine ⟨level, ?_, .inr ⟨hlevel, by omega⟩⟩
      rw [findAt?_cons, if_neg (Nat.ne_of_lt hlt)]
      exact hsome
  · rintro ⟨level, hsome, hlevel⟩
    rw [findAt?_cons] at hsome
    split at hsome
    · exact .inl hsome
    · exact .inr ⟨level, by omega, hsome⟩

end Scopes

namespace ScopeOp

/-- How many more scopes are opened than closed. -/
def net : List (ScopeOp δ) → Int
  | [] => 0
  | openScope :: ops => net ops + 1
  | closeScope :: ops => net ops - 1
  | enter _ _ :: ops => net ops

theorem net_append (xs ys : List (ScopeOp δ)) : net (xs ++ ys) = net xs + net ys := by
  induction xs with
  | nil => exact (Int.zero_add _).symm
  | cons op xs ih => cases op <;> simp only [List.cons_append, net, ih] <;> omega

/-- A scope that was open before the operations is never closed by them. -/
def StaysOpen (ops : List (ScopeOp δ)) : Prop := ∀ xs, xs <+: ops → 0 ≤ net xs

theorem staysOpen_concat {ops : List (ScopeOp δ)} {op : ScopeOp δ} :
    StaysOpen (ops ++ [op]) ↔ StaysOpen ops ∧ 0 ≤ net (ops ++ [op]) := by
  simp only [StaysOpen, List.prefix_concat_iff]
  constructor
  · intro h
    exact ⟨fun xs hxs => h xs (.inr hxs), h _ (.inl rfl)⟩
  · rintro ⟨hops, hlast⟩ xs (rfl | hxs)
    · exact hlast
    · exact hops xs hxs

end ScopeOp

open ScopeOp (net StaysOpen)

/-- The name is free behind a history. -/
def ScopeTable.Accepts (pre : List (ScopeOp δ)) (name : String) : Prop :=
  ∃ t, new.run pre = some t ∧ t.scopes.isTaken name = false

/-- Behind the history `ops`, the declaration that was entered behind `pre` is in force. -/
structure ScopeTable.InForce (ops pre : List (ScopeOp δ)) (name : String) (d : δ) : Prop where
  accepted : Accepts pre name
  still : ∃ post, ops = pre ++ .enter name d :: post ∧ StaysOpen post

namespace ScopeTable

variable {t u : ScopeTable δ} {ops pre pre' : List (ScopeOp δ)} {op : ScopeOp δ} {name : String}
  {d d' : δ} {level : Nat}

theorem length_of_run (h : new.run ops = some t) :
    t.scopes.levels ≠ [] ∧ (t.scopes.levels.length : Int) = net ops + 1 := by
  refine run_induction (P := fun ops t => t.scopes.levels ≠ [] ∧
    (t.scopes.levels.length : Int) = net ops + 1) ?_ ?_ h
  · exact ⟨List.cons_ne_nil _ _, rfl⟩
  · intro ops t op u _ ht hstep
    obtain ⟨-, hlength⟩ := ht
    rw [ScopeOp.net_append]
    cases hstep with
    | opened | refused | entered =>
      refine ⟨List.cons_ne_nil _ _, ?_⟩
      simp only [List.length_cons, net] at hlength ⊢
      omega
    | closed hne =>
      refine ⟨hne, ?_⟩
      simp only [List.length_cons, net] at hlength ⊢
      omega

theorem InForce.net_le (h : InForce ops pre name d) : net pre ≤ net ops := by
  obtain ⟨post, rfl, hpost⟩ := h.still
  have hnet := hpost post (List.prefix_refl post)
  rw [ScopeOp.net_append, net]
  omega

theorem inForce_concat :
    InForce (ops ++ [op]) pre name d ↔ InForce ops pre name d ∧ net pre ≤ net (ops ++ [op]) ∨
      pre = ops ∧ op = .enter name d ∧ Accepts ops name := by
  constructor
  · rintro ⟨haccepts, post, hpost, hopen⟩
    rcases List.eq_nil_or_concat post with rfl | ⟨post, last, rfl⟩
    · obtain ⟨rfl, hop⟩ := List.append_inj' hpost rfl
      cases hop
      exact .inr ⟨rfl, rfl, haccepts⟩
    · rw [List.concat_eq_append, ← List.cons_append, ← List.append_assoc] at hpost
      rw [List.concat_eq_append] at hopen
      obtain ⟨rfl, hop⟩ := List.append_inj' hpost rfl
      cases hop
      obtain ⟨hopen, hlast⟩ := ScopeOp.staysOpen_concat.mp hopen
      refine .inl ⟨⟨haccepts, post, rfl, hopen⟩, ?_⟩
      simp only [ScopeOp.net_append, net] at hlast ⊢
      omega
  · rintro (⟨⟨haccepts, post, rfl, hopen⟩, hnet⟩ | ⟨rfl, rfl, haccepts⟩)
    · refine ⟨haccepts, post ++ [op], by rw [List.append_assoc, List.cons_append], ?_⟩
      rw [ScopeOp.staysOpen_concat]
      refine ⟨hopen, ?_⟩
      simp only [ScopeOp.net_append, net] at hnet ⊢
      omega
    · refine ⟨haccepts, [], rfl, ?_⟩
      intro xs hxs
      rw [List.prefix_nil.mp hxs]
      exact Int.le_refl 0

theorem exists_inForce_concat : (∃ pre, InForce (ops ++ [op]) pre name d ∧ net pre = level) ↔
    (∃ pre, InForce ops pre name d ∧ net pre = level) ∧ level ≤ net (ops ++ [op]) ∨
      op = .enter name d ∧ Accepts ops name ∧ net ops = level := by
  simp only [inForce_concat]
  constructor
  · rintro ⟨pre, ⟨hpre, hle⟩ | ⟨rfl, hop, haccepts⟩, hnet⟩
    · exact .inl ⟨⟨pre, hpre, hnet⟩, hnet ▸ hle⟩
    · exact .inr ⟨hop, haccepts, hnet⟩
  · rintro (⟨⟨pre, hpre, hnet⟩, hle⟩ | ⟨hop, haccepts, hnet⟩)
    · exact ⟨pre, .inl ⟨hpre, hnet ▸ hle⟩, hnet⟩
    · exact ⟨ops, .inr ⟨rfl, hop, haccepts⟩, hnet⟩

theorem findAt?_of_free {inner : Level δ} {outer : List (Level δ)} {declaring : Option String}
    (hfree : Scopes.isTaken ⟨inner :: outer, declaring⟩ name = false) :
    Scopes.findAt? ⟨inner :: outer, declaring⟩ outer.length name = none := by
  rw [Scopes.findAt?_cons, if_pos rfl]
  rw [Scopes.isTaken, Scopes.rivals, List.any_cons, Bool.or_eq_false_iff] at hfree
  exact Option.isNone_iff_eq_none.mp (Option.isSome_eq_false_iff.mp hfree.1)

/-- What is found after an operation was found before it, at a level that is still open, or has been
entered by it. -/
theorem findAt?_of_steps (hrun : new.run ops = some t) (hstep : Steps t op u) :
    u.scopes.findAt? level name = some d ↔ t.scopes.findAt? level name = some d ∧
      (level : Int) ≤ net (ops ++ [op]) ∨ op = .enter name d ∧ Accepts ops name ∧
      net ops = level := by
  have hlength := (length_of_run hrun).2
  have hbound (hfind : t.scopes.findAt? level name = some d) : (level : Int) ≤ net ops := by
    have hlevel := Scopes.lt_length_of_findAt? (Option.isSome_of_eq_some hfind)
    omega
  rw [ScopeOp.net_append]
  cases hstep with
  | opened =>
    rw [Scopes.findAt?_open]
    constructor
    · intro hfind
      have := hbound hfind
      exact .inl ⟨hfind, by simp only [net]; omega⟩
    · rintro (⟨hfind, -⟩ | ⟨hop, -⟩)
      · exact hfind
      · cases hop
  | @closed inner outer declaring flagged hne =>
    rw [Scopes.findAt?_cons]
    simp only [List.length_cons, net] at hlength ⊢
    constructor
    · intro hfind
      have hlevel : level < outer.length :=
        Scopes.lt_length_of_findAt? (Option.isSome_of_eq_some hfind)
      rw [if_neg (Nat.ne_of_lt hlevel)]
      exact .inl ⟨hfind, by omega⟩
    · rintro (⟨hfind, hle⟩ | ⟨hop, -⟩)
      · rwa [if_neg (by omega)] at hfind
      · cases hop
  | @refused inner outer declaring flagged name' e htaken =>
    constructor
    · intro hfind
      have := hbound hfind
      exact .inl ⟨hfind, by simp only [net]; omega⟩
    · rintro (⟨hfind, -⟩ | ⟨hop, ⟨t', ht', hfree⟩, -⟩)
      · exact hfind
      · cases hop
        cases hrun.symm.trans ht'
        cases htaken.symm.trans hfree
  | @entered inner outer declaring flagged name' e hfree =>
    rw [Scopes.findAt?_entered]
    simp only [List.length_cons, net] at hlength ⊢
    by_cases hnew : level = outer.length ∧ name = name'
    · obtain ⟨rfl, rfl⟩ := hnew
      rw [if_pos ⟨rfl, rfl⟩, findAt?_of_free hfree]
      constructor
      · intro he
        cases he
        exact .inr ⟨rfl, ⟨_, hrun, hfree⟩, by omega⟩
      · rintro (⟨hfind, -⟩ | ⟨hop, -⟩)
        · cases hfind
        · cases hop
          rfl
    · rw [if_neg hnew]
      constructor
      · intro hfind
        have := hbound hfind
        exact .inl ⟨hfind, by omega⟩
      · rintro (⟨hfind, -⟩ | ⟨hop, -, hnet⟩)
        · exact hfind
        · cases hop
          exact absurd ⟨by omega, rfl⟩ hnew

/-- Each level of a table holds the declarations in force that were entered at that level. -/
theorem findAt?_eq_some_iff (h : new.run ops = some t) : t.scopes.findAt? level name = some d ↔
    ∃ pre, InForce ops pre name d ∧ net pre = level := by
  refine run_induction (P := fun ops t => ∀ level name d, t.scopes.findAt? level name = some d ↔
    ∃ pre, InForce ops pre name d ∧ net pre = (level : Int)) ?_ ?_ h level name d
  · intro level name d
    constructor
    · intro hfind
      have hlevel : level < 1 := Scopes.lt_length_of_findAt? (Option.isSome_of_eq_some hfind)
      obtain rfl : level = 0 := by omega
      cases hfind
    · rintro ⟨pre, ⟨-, post, hpost, -⟩, -⟩
      cases pre <;> cases hpost
  · intro ops t op u hrun ih hstep level name d
    rw [exists_inForce_concat, ← ih]
    exact findAt?_of_steps hrun hstep

/-- Of two declarations in force the earlier one was in force when the later one was entered. -/
theorem InForce.compare {name' : String} (h : InForce ops pre name d)
    (h' : InForce ops pre' name' d') :
    pre = pre' ∨ InForce pre pre' name' d' ∨ InForce pre' pre name d := by
  obtain ⟨post, rfl, hpost⟩ := h.still
  obtain ⟨post', heq, hpost'⟩ := h'.still
  have hearlier {xs xs' mid rest rest' : List (ScopeOp δ)} {x x' : ScopeOp δ}
      (hxs : xs = xs' ++ mid)
      (hrest : x' :: rest' = mid ++ x :: rest) : xs = xs' ∨ ∃ mid', xs = xs' ++ x' :: mid' ∧
        mid' <+: rest' := by
    cases mid with
    | nil => exact .inl (hxs.trans (List.append_nil xs'))
    | cons y mid =>
      injection hrest with hy hmid
      subst hy
      exact .inr ⟨mid, hxs, hmid ▸ List.prefix_append mid _⟩
  have hopen {mid rest : List (ScopeOp δ)} (hrest : StaysOpen rest) (hmid : mid <+: rest) :
      StaysOpen mid :=
    fun xs hxs => hrest xs (hxs.trans hmid)
  rcases List.append_eq_append_iff.mp heq with ⟨mid, hpre, hrest⟩ | ⟨mid, hpre, hrest⟩
  · rcases hearlier hpre hrest with heq | ⟨mid', hmid, hprefix⟩
    · exact .inl heq.symm
    · exact .inr (.inr ⟨h.accepted, mid', hmid, hopen hpost hprefix⟩)
  · rcases hearlier hpre hrest with heq | ⟨mid', hmid, hprefix⟩
    · exact .inl heq
    · exact .inr (.inl ⟨h'.accepted, mid', hmid, hopen hpost' hprefix⟩)

theorem InForce.length_lt (h : InForce ops pre name d) : pre.length < ops.length := by
  obtain ⟨post, rfl, -⟩ := h.still
  rw [List.length_append, List.length_cons]
  omega

theorem InForce.eq_of_length {name' : String} (h : InForce ops pre name d)
    (h' : InForce ops pre' name' d') (heq : pre.length = pre'.length) : pre = pre' := by
  rcases h.compare h' with hsame | hbefore | hbefore
  · exact hsame
  · have := hbefore.length_lt
    omega
  · have := hbefore.length_lt
    omega

theorem InForce.exists_level (h : InForce ops pre name d) : ∃ level : Nat, net pre = level := by
  obtain ⟨t, ht, -⟩ := h.accepted
  obtain ⟨hne, hlength⟩ := length_of_run ht
  have hpos := List.length_pos_iff.mpr hne
  exact ⟨t.scopes.levels.length - 1, by omega⟩

theorem InForce.no_clash (h : InForce ops pre name d) (hfree : Accepts ops name) :
    net pre ≠ net ops ∧ ¬ (2 ≤ net pre ∧ 2 ≤ net ops) := by
  obtain ⟨t, ht, hfree⟩ := hfree
  obtain ⟨level, hlevel⟩ := h.exists_level
  obtain ⟨hne, hlength⟩ := length_of_run ht
  have hdepth : t.scopes.depth = net ops := by
    rw [Scopes.depth]
    omega
  have hfind : t.scopes.findAt? level name = some d := (findAt?_eq_some_iff ht).mpr ⟨pre, h, hlevel⟩
  have hclash : ¬ t.scopes.Clashes name := by
    rw [← Scopes.isTaken_iff_clashes hne, hfree]
    exact Bool.false_ne_true
  have hapart : ¬ ((level : Int) = t.scopes.depth ∨ 2 ≤ level ∧ 2 ≤ t.scopes.depth) :=
    fun h => hclash ⟨level, Option.isSome_of_eq_some hfind, h⟩
  omega

theorem InForce.lt_of_lt (h : InForce ops pre name d) (h' : InForce ops pre' name d')
    (hlt : pre.length < pre'.length) : net pre < net pre' ∧ ¬ (2 ≤ net pre ∧ 2 ≤ net pre') := by
  rcases h.compare h' with rfl | hbefore | hbefore
  · omega
  · have := hbefore.length_lt
    omega
  · obtain ⟨hne, hlocal⟩ := hbefore.no_clash h'.accepted
    have := hbefore.net_le
    exact ⟨by omega, hlocal⟩

/-- The latest of the declarations of a name that are in force. -/
def Latest (ops : List (ScopeOp δ)) (name : String) (d : δ) : Prop :=
  ∃ pre, InForce ops pre name d ∧ ∀ pre' d', InForce ops pre' name d' → pre'.length ≤ pre.length

theorem find?_eq_some_iff_latest (h : new.run ops = some t) :
    t.scopes.find? name = some d ↔ Latest ops name d := by
  rw [Scopes.find?_eq_some_iff]
  constructor
  · rintro ⟨level, hfind, hnone⟩
    obtain ⟨pre, hpre, hnet⟩ := (findAt?_eq_some_iff h).mp hfind
    refine ⟨pre, hpre, ?_⟩
    intro pre' d' hpre'
    apply Nat.le_of_not_lt
    intro hlt
    obtain ⟨hlevel, -⟩ := hpre.lt_of_lt hpre' hlt
    obtain ⟨level', hlevel'⟩ := hpre'.exists_level
    have hfind' := (findAt?_eq_some_iff h).mpr ⟨pre', hpre', hlevel'⟩
    cases hfind'.symm.trans (hnone level' (by omega))
  · rintro ⟨pre, hpre, hlatest⟩
    obtain ⟨level, hlevel⟩ := hpre.exists_level
    refine ⟨level, (findAt?_eq_some_iff h).mpr ⟨pre, hpre, hlevel⟩, ?_⟩
    intro higher hhigher
    cases hfind : t.scopes.findAt? higher name with
    | none => rfl
    | some d' =>
      obtain ⟨pre', hpre', hnet⟩ := (findAt?_eq_some_iff h).mp hfind
      have hle := hlatest pre' d' hpre'
      rcases Nat.lt_or_eq_of_le hle with hlt | heq
      · obtain ⟨hlt, -⟩ := hpre'.lt_of_lt hpre hlt
        omega
      · rw [hpre'.eq_of_length hpre heq] at hnet
        omega

theorem level_unique (h : new.run ops = some t) {i j : Nat} (hi : 2 ≤ i) (hj : 2 ≤ j)
    (hfind : (t.scopes.findAt? i name).isSome)
    (hfind' : (t.scopes.findAt? j name).isSome) : i = j := by
  obtain ⟨d, hd⟩ := Option.isSome_iff_exists.mp hfind
  obtain ⟨d', hd'⟩ := Option.isSome_iff_exists.mp hfind'
  obtain ⟨pre, hpre, hnet⟩ := (findAt?_eq_some_iff h).mp hd
  obtain ⟨pre', hpre', hnet'⟩ := (findAt?_eq_some_iff h).mp hd'
  rcases Nat.lt_trichotomy pre.length pre'.length with hlt | heq | hgt
  · exact absurd ⟨by omega, by omega⟩ (hpre.lt_of_lt hpre' hlt).2
  · rw [hpre.eq_of_length hpre' heq] at hnet
    omega
  · exact absurd ⟨by omega, by omega⟩ (hpre'.lt_of_lt hpre hgt).2

/-- A declaration is refused if it clashes, and then it alone is flagged and no scope changes; else
it is entered. -/
theorem step_enter (h : new.run ops = some t) (name : String) (d : δ) :
    (t.scopes.enter name d = .ok none ↔ t.scopes.Clashes name) ∧
      (t.scopes.Clashes name → t.step (.enter name d) = some { t with flagged := d :: t.flagged }) ∧
      (¬ t.scopes.Clashes name → ∃ inner outer, t.scopes.levels = inner :: outer ∧
        t.step (.enter name d) =
          some { t with scopes := { t.scopes with levels := ((name, d) :: inner) :: outer } }) := by
  obtain ⟨hne, -⟩ := length_of_run h
  rw [← Scopes.isTaken_iff_clashes hne]
  obtain ⟨⟨levels, declaring⟩, flagged⟩ := t
  obtain ⟨inner, outer, rfl⟩ := List.exists_cons_of_ne_nil hne
  refine ⟨?_, ?_, ?_⟩
  · simp only [Scopes.enter]
    split <;> simp_all
  · intro htaken
    exact step_eq_some_iff.mpr (.refused htaken)
  · intro hfree
    exact ⟨inner, outer, rfl, step_eq_some_iff.mpr (.entered (by simpa using hfree))⟩

/-- A sequence that closes just the scopes that it opens. -/
inductive Balanced : List (ScopeOp δ) → Prop
  | nil : Balanced []
  | enter (name : String) (d : δ) {rest : List (ScopeOp δ)} : Balanced rest →
      Balanced (.enter name d :: rest)
  | nest {body rest : List (ScopeOp δ)} : Balanced body → Balanced rest →
    Balanced (.openScope :: (body ++ .closeScope :: rest))

/-- A balanced sequence can be run on every table and leaves all scopes but the innermost as they
are. -/
theorem Balanced.run (h : Balanced ops) (inner : Level δ) (outer : List (Level δ))
    (declaring : Option String) (flagged : List δ) :
    ∃ inner' flagged', ScopeTable.run ⟨⟨inner :: outer, declaring⟩, flagged⟩ ops =
      some ⟨⟨inner' :: outer, declaring⟩, flagged'⟩ := by
  induction h generalizing inner outer flagged with
  | nil => exact ⟨inner, flagged, rfl⟩
  | enter name d _ ih =>
    cases htaken : Scopes.isTaken ⟨inner :: outer, declaring⟩ name with
    | true =>
      obtain ⟨inner', flagged', hrun⟩ := ih inner outer (d :: flagged)
      refine ⟨inner', flagged', ?_⟩
      rw [ScopeTable.run, step_eq_some_iff.mpr (.refused htaken)]
      exact hrun
    | false =>
      obtain ⟨inner', flagged', hrun⟩ := ih ((name, d) :: inner) outer flagged
      refine ⟨inner', flagged', ?_⟩
      rw [ScopeTable.run, step_eq_some_iff.mpr (.entered htaken)]
      exact hrun
  | nest _ _ ihbody ihrest =>
    obtain ⟨nested, flagged₁, hbody⟩ := ihbody [] (inner :: outer) flagged
    obtain ⟨inner', flagged₂, hrest⟩ := ihrest inner outer flagged₁
    refine ⟨inner', flagged₂, ?_⟩
    have hclose : step ⟨⟨nested :: inner :: outer, declaring⟩, flagged₁⟩ .closeScope =
        some ⟨⟨inner :: outer, declaring⟩, flagged₁⟩ :=
          step_eq_some_iff.mpr (.closed (List.cons_ne_nil _ _))
    rw [ScopeTable.run, step_eq_some_iff.mpr .opened, Option.bind_some, run_append, hbody,
      Option.bind_some, ScopeTable.run, hclose]
    exact hrest

/-- Between the opening of a scope and its closing, nothing is done to the other scopes. -/
theorem run_nested (h : new.run ops = some t) {body : List (ScopeOp δ)} (hbody : Balanced body) :
    ∃ flagged, t.run (.openScope :: (body ++ [ScopeOp.closeScope])) = some { t with flagged } := by
  obtain ⟨hne, -⟩ := length_of_run h
  obtain ⟨⟨levels, declaring⟩, flagged⟩ := t
  obtain ⟨nested, flagged', hrun⟩ := hbody.run [] levels declaring flagged
  refine ⟨flagged', ?_⟩
  rw [run, step_eq_some_iff.mpr .opened, Option.bind_some, run_concat_eq_some]
  exact ⟨_, hrun, .closed hne⟩

end ScopeTable

end MiniJava
