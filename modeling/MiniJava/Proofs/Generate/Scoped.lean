import MiniJava.Generate.Program
import MiniJava.Proofs.Sequence
import MiniJava.Proofs.Typing.Rules
/-!
Which local variables are in scope at each instruction, and where the frame has them. The
instructions are those of the code; what is in scope is written beside them.
-/
namespace MiniJava.Generate

/-- Code whose instructions carry the locals in scope, the most recent last. -/
abbrev Scoped := List (Item × List Local)

/-- Code all of which has the same locals in scope. -/
def within (vars : List Local) (code : List Item) : Scoped := code.map (·, vars)

section

variable (classes : ClassLayouts)

mutual

/-- The code of a statement with what is in scope at each instruction, and the frame after it. -/
def scopedStmt (start : Nat) (frame : Frame)
    (vars : List Local) : Stmt → Except Fault (Scoped × Frame)
  | .block body _ => do
    let (code, inner, innerVars) ← scopedStmts start frame vars body
    return (code ++ within innerVars (dropLocals (inner.size - frame.size)),
      inner.shrink frame.size)
  | .ifThen cond t _ => do
    let test ← expr classes frame start cond
    let (code, after) ← scopedStmt (start + test.length + 1) frame vars t
    return (within vars (test ++ [.jumpIf 0 (start + test.length + 1 + code.length)]) ++ code,
      after)
  | .ifElse cond t e _ => do
    let test ← expr classes frame start cond
    let (code, between) ← scopedStmt (start + test.length + 1) frame vars t
    let other := start + test.length + code.length + 2
    let (otherCode, after) ← scopedStmt other between vars e
    return (within vars (test ++ [.jumpIf 0 other]) ++ code ++
      within vars [.jump (other + otherCode.length)] ++ otherCode, after)
  | .loop cond body _ => do
    let (code, after) ← scopedStmt (start + 1) frame vars body
    let test ← expr classes after (start + 1 + code.length) cond
    return (within vars [.jump (start + 1 + code.length)] ++ code ++
      within vars (test ++ [.jumpIf 1 (start + 1)]),
      after)
  | s => do
    let (code, after) ← stmt classes start frame s
    return (within vars code, after)

/-- The code of statements in order, with the locals that can be seen after them. -/
def scopedStmts (start : Nat) (frame : Frame) (vars : List Local) :
    List Stmt → Except Fault (Scoped × Frame × List Local)
  | [] => .ok ([], frame, vars)
  | s :: ss => do
    let (first, between) ← scopedStmt start frame vars s
    let (rest, after, afterVars) ←
      scopedStmts (start + first.length) between (s.seen frame.locals.length vars) ss
    return (first ++ rest, after, afterVars)

end

end

variable {classes : ClassLayouts}

@[simp] theorem map_fst_within (vars : List Local)
    (code : List Item) : (within vars code).map (·.1) = code := by
  simp [within, Function.comp_def]

@[simp] theorem length_within (vars : List Local) (code : List Item) :
    (within vars code).length = code.length := by
  simp [within]

/-- A statement other than a block, a conditional or a loop. -/
def isSimple : Stmt → Bool
  | .block _ _ | .ifThen _ _ _ | .ifElse _ _ _ _ | .loop _ _ _ => false
  | _ => true

theorem scopedStmt_simple {start : Nat} {frame : Frame} {vars : List Local} {s : Stmt}
    (h : isSimple s = true) :
    scopedStmt classes start frame vars s = (do
      let (code, after) ← stmt classes start frame s
      return (within vars code, after)) := by
  cases s with
  | block | ifThen | ifElse | loop => cases h
  | _ => rfl

mutual

/-- What is in scope is written beside the code that is made. -/
theorem exists_scopedStmt {start : Nat} {frame after : Frame} {code : List Item}
    (vars : List Local) {s : Stmt} (h : stmt classes start frame s = .ok (code, after)) :
    ∃ marked, scopedStmt classes start frame vars s = .ok (marked, after) ∧
      marked.map (·.1) = code := by
  cases s with
  | block body sp =>
    rw [stmt] at h
    obtain ⟨⟨inner, frame₁⟩, h₁, h₂⟩ := Except.bind_eq_ok.mp h
    cases h₂
    obtain ⟨marked, vars', hscoped, rfl⟩ := exists_scopedStmts vars h₁
    exact ⟨_, by simp only [scopedStmt, hscoped]; rfl, by simp⟩
  | ifThen cond t sp =>
    rw [stmt] at h
    obtain ⟨test, h₁, h₂⟩ := Except.bind_eq_ok.mp h
    obtain ⟨⟨code₁, frame₁⟩, h₃, h₄⟩ := Except.bind_eq_ok.mp h₂
    cases h₄
    obtain ⟨marked, hscoped, rfl⟩ := exists_scopedStmt vars h₃
    exact ⟨_, by simp only [scopedStmt, h₁, hscoped, Except.ok_bind]; rfl, by simp⟩
  | ifElse cond t e sp =>
    rw [stmt] at h
    obtain ⟨test, h₁, h₂⟩ := Except.bind_eq_ok.mp h
    obtain ⟨⟨code₁, frame₁⟩, h₃, h₄⟩ := Except.bind_eq_ok.mp h₂
    obtain ⟨⟨code₂, frame₂⟩, h₅, h₆⟩ := Except.bind_eq_ok.mp h₄
    cases h₆
    obtain ⟨marked₁, hmarked₁, rfl⟩ := exists_scopedStmt vars h₃
    obtain ⟨marked₂, hmarked₂, rfl⟩ := exists_scopedStmt vars h₅
    rw [List.length_map] at hmarked₂
    exact ⟨_, by simp only [scopedStmt, h₁, hmarked₁, hmarked₂, Except.ok_bind]; rfl, by simp⟩
  | loop cond body sp =>
    rw [stmt] at h
    obtain ⟨⟨code₁, frame₁⟩, h₁, h₂⟩ := Except.bind_eq_ok.mp h
    obtain ⟨test, h₃, h₄⟩ := Except.bind_eq_ok.mp h₂
    cases h₄
    obtain ⟨marked, hscoped, rfl⟩ := exists_scopedStmt vars h₁
    rw [List.length_map] at h₃
    exact ⟨_, by simp only [scopedStmt, hscoped, h₃, Except.ok_bind]; rfl, by simp⟩
  | _ => exact ⟨within vars code, by rw [scopedStmt_simple rfl, h]; rfl, by simp⟩

theorem exists_scopedStmts {start : Nat} {frame after : Frame} {code : List Item}
    (vars : List Local) {ss : List Stmt} (h : stmts classes start frame ss = .ok (code, after)) :
    ∃ marked vars', scopedStmts classes start frame vars ss = .ok (marked, after, vars') ∧
      marked.map (·.1) = code := by
  cases ss with
  | nil => cases h; exact ⟨[], vars, rfl, rfl⟩
  | cons s ss =>
    rw [stmts] at h
    obtain ⟨⟨first, between⟩, h₁, h₂⟩ := Except.bind_eq_ok.mp h
    obtain ⟨⟨rest, frame₁⟩, h₃, h₄⟩ := Except.bind_eq_ok.mp h₂
    cases h₄
    obtain ⟨marked₁, hmarked₁, rfl⟩ := exists_scopedStmt vars h₁
    obtain ⟨marked₂, vars', hmarked₂, rfl⟩ :=
      exists_scopedStmts (s.seen frame.locals.length vars) h₃
    rw [List.length_map] at hmarked₂
    exact ⟨_, _, by simp only [scopedStmts, hmarked₁, hmarked₂, Except.ok_bind]; rfl, by simp⟩

end

/-- The frame has the locals in scope one after the other, behind the link. -/
structure Fits (frame : Frame) (vars : List Local) : Prop where
  size : frame.size = Frame.linkSize + vars.length
  places : ∀ (j : Nat) x, vars[j]? = some x → frame.locals[x.1]? = some (Frame.linkSize + j)

/-- What a statement leaves of the frame before it, and how many locals it adds. -/
structure Grows (frame after : Frame) (count : Nat) : Prop where
  params : after.params = frame.params
  locals : frame.locals <+: after.locals
  count : after.locals.length = frame.locals.length + count

theorem Grows.refl (frame : Frame) : Grows frame frame 0 := ⟨rfl, List.prefix_refl _, rfl⟩

theorem Grows.trans {f₁ f₂ f₃ : Frame} {m n : Nat} (h₁ : Grows f₁ f₂ m) (h₂ : Grows f₂ f₃ n) :
    Grows f₁ f₃ (m + n) :=
  ⟨h₂.params.trans h₁.params, h₁.locals.trans h₂.locals, by rw [h₂.count, h₁.count, Nat.add_assoc]⟩

theorem Grows.getElem? {frame after : Frame} {count i o : Nat} (h : Grows frame after count)
    (ho : frame.locals[i]? = some o) : after.locals[i]? = some o := by
  obtain ⟨new, hnew⟩ := h.locals
  rw [← hnew, List.getElem?_append_left (List.getElem?_eq_some_iff.mp ho).1, ho]

theorem fits_entry (params : Nat) : Fits (.entry params) [] := ⟨rfl, nofun⟩

theorem Fits.declare {frame : Frame} {vars : List Local} (h : Fits frame vars) (v : Variable) :
    Fits frame.declare (vars ++ [(frame.locals.length, v)]) := by
  refine ⟨by simp [Frame.declare, h.size, Nat.add_assoc], fun j x hx => ?_⟩
  rcases Nat.lt_or_ge j vars.length with hj | hj
  · rw [List.getElem?_append_left hj] at hx
    have hold := h.places j x hx
    simp only [Frame.declare]
    rw [List.getElem?_append_left (List.getElem?_eq_some_iff.mp hold).1, hold]
  · rw [List.getElem?_append_right hj] at hx
    have hj₀ : j - vars.length = 0 := by simpa using (List.getElem?_eq_some_iff.mp hx).1
    rw [hj₀] at hx
    cases hx
    simp [Frame.declare, h.size]
    omega

theorem Fits.after {frame after : Frame} {vars : List Local} {count : Nat} (h : Fits frame vars)
    (hg : Grows frame after count) (hsize : after.size = frame.size) : Fits after vars :=
  ⟨hsize.trans h.size, fun j x hx => hg.getElem? (h.places j x hx)⟩

theorem seen_of_not_declaration {s : Stmt} {k : Nat} {vars : List Local}
    (h : s.isDeclaration = false) : s.seen k vars = vars := by
  cases s with
  | declare => cases h
  | _ => rfl

theorem prefix_seen (s : Stmt) (k : Nat) (vars : List Local) : vars <+: s.seen k vars := by
  cases s with
  | declare => exact List.prefix_append _ _
  | _ => exact List.prefix_refl _

theorem stmt_grows {start : Nat} {frame after : Frame} {s : Stmt} {code : List Item}
    {vars : List Local} (hs : isSimple s = true) (hf : Fits frame vars)
    (h : stmt classes start frame s = .ok (code, after)) :
    Fits after (s.seen frame.locals.length vars) ∧ Grows frame after s.locals.length := by
  cases s with
  | block | ifThen | ifElse | loop => cases hs
  | declare v init sp =>
    rw [stmt] at h
    obtain ⟨code, -, h₂⟩ := Except.bind_eq_ok.mp h
    cases h₂
    exact ⟨hf.declare v, rfl, List.prefix_append _ _, by simp [Frame.declare, Stmt.locals]⟩
  | assign r value sp =>
    rw [stmt] at h
    obtain ⟨code, -, h₂⟩ := Except.bind_eq_ok.mp h
    cases h₂
    exact ⟨hf, .refl _⟩
  | assignIndex r i value sp =>
    rw [stmt] at h
    obtain ⟨array, -, h₂⟩ := Except.bind_eq_ok.mp h
    obtain ⟨index, -, h₃⟩ := Except.bind_eq_ok.mp h₂
    obtain ⟨code, -, h₄⟩ := Except.bind_eq_ok.mp h₃
    cases h₄
    exact ⟨hf, .refl _⟩
  | call r args sp =>
    rw [stmt] at h
    obtain ⟨⟨owner, m⟩, -, h₂⟩ := Except.bind_eq_ok.mp h
    obtain ⟨values, -, h₃⟩ := Except.bind_eq_ok.mp h₂
    obtain ⟨code, -, h₄⟩ := Except.bind_eq_ok.mp h₃
    cases h₄
    exact ⟨hf, .refl _⟩
  | ret value sp =>
    cases value with
    | none => cases h; exact ⟨hf, .refl _⟩
    | some value =>
      rw [stmt] at h
      obtain ⟨code, -, h₂⟩ := Except.bind_eq_ok.mp h
      cases h₂
      exact ⟨hf, .refl _⟩

variable {m : Signature}

mutual

/-- After a statement the frame has the locals that can be seen then. -/
theorem scopedStmt_grows {start : Nat} {frame after : Frame} {vars : List Local} {s : Stmt}
    {code : Scoped} (ht : s.WellTyped m) (hf : Fits frame vars)
    (h : scopedStmt classes start frame vars s = .ok (code, after)) :
    Fits after (s.seen frame.locals.length vars) ∧ Grows frame after s.locals.length := by
  have hsimple (hs : isSimple s = true) :
      Fits after (s.seen frame.locals.length vars) ∧ Grows frame after s.locals.length := by
    rw [scopedStmt_simple hs] at h
    obtain ⟨⟨code, after⟩, h₁, h₂⟩ := Except.bind_eq_ok.mp h
    cases h₂
    exact stmt_grows hs hf h₁
  cases ht with
  | block hbody =>
    rw [scopedStmt] at h
    obtain ⟨⟨inner, frame₁, vars₁⟩, h₁, h₂⟩ := Except.bind_eq_ok.mp h
    cases h₂
    obtain ⟨-, hgrows, -⟩ := scopedStmts_grows hbody hf h₁
    have hshrunk : Grows frame (frame₁.shrink frame.size) _ :=
      ⟨hgrows.params, hgrows.locals, hgrows.count⟩
    exact ⟨hf.after hshrunk rfl, hshrunk⟩
  | ifThen hc hd ht =>
    rw [scopedStmt] at h
    obtain ⟨test, h₁, h₂⟩ := Except.bind_eq_ok.mp h
    obtain ⟨⟨code₁, frame₁⟩, h₃, h₄⟩ := Except.bind_eq_ok.mp h₂
    cases h₄
    obtain ⟨hfits, hgrows⟩ := scopedStmt_grows ht hf h₃
    rw [seen_of_not_declaration hd] at hfits
    exact ⟨hfits, hgrows⟩
  | ifElse hc hd ht he hte =>
    rw [scopedStmt] at h
    obtain ⟨test, h₁, h₂⟩ := Except.bind_eq_ok.mp h
    obtain ⟨⟨code₁, frame₁⟩, h₃, h₄⟩ := Except.bind_eq_ok.mp h₂
    obtain ⟨⟨code₂, frame₂⟩, h₅, h₆⟩ := Except.bind_eq_ok.mp h₄
    cases h₆
    obtain ⟨hfits₁, hgrows₁⟩ := scopedStmt_grows ht hf h₃
    rw [seen_of_not_declaration hd] at hfits₁
    obtain ⟨hfits₂, hgrows₂⟩ := scopedStmt_grows hte hfits₁ h₅
    rw [seen_of_not_declaration he] at hfits₂
    refine ⟨hfits₂, ?_⟩
    simpa [Stmt.locals] using hgrows₁.trans hgrows₂
  | loop hc hd hbody =>
    rw [scopedStmt] at h
    obtain ⟨⟨code₁, frame₁⟩, h₁, h₂⟩ := Except.bind_eq_ok.mp h
    obtain ⟨test, h₃, h₄⟩ := Except.bind_eq_ok.mp h₂
    cases h₄
    obtain ⟨hfits, hgrows⟩ := scopedStmt_grows hbody hf h₁
    rw [seen_of_not_declaration hd] at hfits
    exact ⟨hfits, hgrows⟩
  | declare | assign | assignIndex | call | retNone | ret => exact hsimple rfl

theorem scopedStmts_grows {start : Nat} {frame after : Frame} {vars vars' : List Local}
    {ss : List Stmt} {code : Scoped} (ht : Stmt.AllWellTyped m ss) (hf : Fits frame vars)
    (h : scopedStmts classes start frame vars ss = .ok (code, after, vars')) :
    Fits after vars' ∧ Grows frame after (Stmt.localsOf ss).length ∧ vars <+: vars' := by
  cases ht with
  | nil => cases h; exact ⟨hf, .refl _, List.prefix_refl _⟩
  | @cons s ss hs hss =>
    rw [scopedStmts] at h
    obtain ⟨⟨first, between⟩, h₁, h₂⟩ := Except.bind_eq_ok.mp h
    obtain ⟨⟨rest, frame₁, vars₁⟩, h₃, h₄⟩ := Except.bind_eq_ok.mp h₂
    cases h₄
    obtain ⟨hfits₁, hgrows₁⟩ := scopedStmt_grows hs hf h₁
    obtain ⟨hfits₂, hgrows₂, hvars⟩ := scopedStmts_grows hss hfits₁ h₃
    refine ⟨hfits₂, ?_, (prefix_seen s _ vars).trans hvars⟩
    simpa [Stmt.localsOf] using hgrows₁.trans hgrows₂

end

/-- The parameters and locals in scope at an instruction. -/
structure Scope where
  params : List Variable
  vars : List Local

/-- Code with what is in scope at each instruction; outside of methods there is no scope. -/
abbrev Annotated := List (Item × Option Scope)

/-- What is in scope at an address of the code. -/
def Annotated.scopeAt (items : Annotated) (a : Nat) : Option (Option Scope) := items[a]?.map (·.2)

def inMethod (params : List Variable) (code : Scoped) : Annotated :=
  code.map fun x => (x.1, some ⟨params, x.2⟩)

section

variable (classes : ClassLayouts)

def scopedMethod (start : Nat) (m : Method) : Except Fault Annotated := do
  let (code, _, vars) ← scopedStmts classes start (.entry m.params.length) [] m.body
  return inMethod m.params (code ++ within vars (closing m))

def scopedMethods (start : Nat) : List (String × Method) → Except Fault Annotated
  | [] => .ok []
  | (_, m) :: ms => do
    let first ← scopedMethod classes start m
    let rest ← scopedMethods (start + first.length) ms
    return first ++ rest

end

@[simp] theorem map_fst_inMethod (params : List Variable) (code : Scoped) :
    (inMethod params code).map (·.1) = code.map (·.1) := by
  simp [inMethod, Function.comp_def]

@[simp] theorem length_inMethod (params : List Variable) (code : Scoped) :
    (inMethod params code).length = code.length := by
  simp [inMethod]

/-- The code of a method stands at an address. -/
def StandsAt (classes : ClassLayouts) (items : Annotated) (a : Nat) (m : Method) : Prop :=
  ∃ code after vars, scopedStmts classes a (.entry m.params.length) [] m.body = .ok (code, after,
    vars) ∧
    inMethod m.params (code ++ within vars (closing m)) <+: items.drop a

theorem scopedMethods_standsAt {ms : List (String × Method)} {start : Nat}
    {codes : List MethodCode} (before : Annotated) (hbefore : before.length = start)
    (h : methodCodes classes start ms = .ok codes) :
    ∃ items, scopedMethods classes start ms = .ok items ∧
      items.map (·.1) = codes.flatMap (·.items) ∧
      ∀ (key : MethodKey) x, ms.find? (fun x => (⟨x.1, x.2.name⟩ : MethodKey) == key) = some x →
        ∃ a, (codes.find? (·.key == key)).map (·.address) = some a ∧
        StandsAt classes (before ++ items) a x.2 := by
  induction ms generalizing start codes before with
  | nil => cases h; exact ⟨[], rfl, rfl, nofun⟩
  | cons x ms ih =>
    obtain ⟨owner, m⟩ := x
    rw [methodCodes] at h
    obtain ⟨first, h₁, h₂⟩ := Except.bind_eq_ok.mp h
    obtain ⟨rest, h₃, h₄⟩ := Except.bind_eq_ok.mp h₂
    cases h₄
    rw [methodCode] at h₁
    obtain ⟨⟨code, frame⟩, h₅, h₆⟩ := Except.bind_eq_ok.mp h₁
    cases h₆
    obtain ⟨marked, vars, hmarked, rfl⟩ := exists_scopedStmts [] h₅
    have hlen : (inMethod m.params (marked ++ within vars (closing m))).length =
        (marked.map (·.1) ++ closing m).length := by simp
    obtain ⟨items, hitems, hfst, hfound⟩ :=
      ih (before ++ inMethod m.params (marked ++ within vars (closing m))) (by simp [hbefore]) h₃
    refine ⟨inMethod m.params (marked ++ within vars (closing m)) ++ items, ?_, by simp [hfst], ?_⟩
    · rw [← hlen] at hitems
      rw [scopedMethods, scopedMethod, hmarked]
      exact Except.bind_eq_ok.mpr ⟨_, rfl, Except.bind_eq_ok.mpr ⟨_, hitems, rfl⟩⟩
    · intro key y hy
      rw [List.find?_cons] at hy ⊢
      split at hy
      · rename_i heq
        cases hy
        refine ⟨start, by simp [heq], marked, frame, vars, hmarked, ?_⟩
        rw [List.drop_append_of_le_length (by omega), List.drop_eq_nil_of_le (by omega),
          List.nil_append]
        exact List.prefix_append _ _
      · rename_i heq
        obtain ⟨a, ha, hstands⟩ := hfound key y hy
        exact ⟨a, by simpa [heq] using ha, by simpa using hstands⟩

end MiniJava.Generate

namespace MiniJava

open Generate

/-- The code of a program with what is in scope at each instruction. -/
def Program.annotated (p : Program) (entry : MethodKey) : Except Generate.Fault Annotated := do
  let preamble := preamble p.staticCount entry
  let methods ← scopedMethods p.classLayouts preamble.length p.methods
  return preamble.map (·, none) ++ methods

/-- The instructions are those of the program, and each method is found at its address. -/
theorem Program.annotated_of_draft {p : Program} {entry : MethodKey} {d : Draft}
    (h : p.draft entry = .ok d) :
    ∃ items, p.annotated entry = .ok items ∧ items.map (·.1) = d.items ∧
      (preamble p.staticCount entry).map (·, none) <+: items ∧
      ∀ (key : MethodKey) x, p.methods.find? (fun x => (⟨x.1, x.2.name⟩ : MethodKey) == key) =
        some x →
        ∃ a, d.address key = some a ∧ StandsAt p.classLayouts items a x.2 := by
  rw [Program.draft] at h
  obtain ⟨codes, hcodes, hrest⟩ := Except.bind_eq_ok.mp h
  cases hrest
  obtain ⟨items, hitems, hfst, hfound⟩ :=
    scopedMethods_standsAt ((preamble p.staticCount entry).map (·, none)) (by simp) hcodes
  refine ⟨_, ?_, ?_, List.prefix_append _ _, hfound⟩
  · rw [Program.annotated, hitems]
    rfl
  · simp [hfst, Draft.items, Function.comp_def]

end MiniJava
