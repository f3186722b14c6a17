import MiniJava.Proofs.Generate.Emission
import MiniJava.Proofs.Layout.Slots
import MiniJava.Proofs.Scope.Journal
import MiniJava.Proofs.Typing.Accepted
/-!
Code is made for every program that passes the checks: every reference has a place, every call has
an address, and compiling fails only with a message.
-/
namespace MiniJava

open Generate

/-- A call names a method that has code of its own. -/
def Setting.Links (E : Setting) : Item → Prop
  | .call key | .callOn key =>
    ∃ m, E.HasMethod key.owner m ∧ m.name = key.name ∧ isPrintln key.owner m = false
  | _ => True

/-- Code is made, and its calls name methods. -/
def Setting.Makes (E : Setting) (x : Made) : Prop := ∃ code, x = .ok code ∧ ∀ i ∈ code, E.Links i

namespace Setting.Makes

variable {E : Setting}

theorem of_items {code : List Item}
    (h : ∀ i ∈ code, E.Links i) : E.Makes (.ok code) := ⟨code, rfl, h⟩

theorem bind {x : Made} {f : List Item → Made} (hx : E.Makes x)
    (hf : ∀ code, (∀ i ∈ code, E.Links i) → E.Makes (f code)) : E.Makes (x >>= f) := by
  obtain ⟨code, rfl, hcode⟩ := hx
  exact hf code hcode

theorem pure_append {c₁ c₂ : List Item} (h₁ : ∀ i ∈ c₁, E.Links i) (h₂ : ∀ i ∈ c₂, E.Links i) :
    E.Makes (pure (c₁ ++ c₂)) :=
  of_items fun i hi => (List.mem_append.mp hi).elim (h₁ i) (h₂ i)

end Setting.Makes

namespace Generate

variable {E : Setting} {layouts : ClassLayouts} {frame : Frame} {vars : List Local} {r : Ref}
  {start : Nat}

/-- The frame has a place for each of these locals. -/
def Covers (frame : Frame) (vars : List Local) : Prop := ∀ x ∈ vars, x.1 < frame.locals.length

theorem isValue_of_array {q : Ref} {d : Meaning} {t : Ty} (hq : E.Binds vars q d)
    (hk : d.kind ≠ .method) (ht : d.ty = .array t) : q.isValue = true := by
  cases hq with
  | this | cls => cases ht
  | field | param | localVar | length | memberField => rfl
  | method | memberMethod => exact absurd rfl hk

/-- Whether a reference is `this`, whose members need no object on the stack. -/
def isThis : Ref → Bool
  | .this _ _ => true
  | _ => false

theorem ref_memberField {q : Ref} {id : Ident} {owner : String} {f : Field} {place : FieldPlace}
    (h : layouts.field? owner f.name = some place) :
    ref layouts frame (.member q id (some (.field owner f))) =
      if place.isStatic || isThis q then .ok [.loadField place]
      else (· ++ [.literal (Word.ofNat place.offset), .prim .fieldref]) <$>
      ref layouts frame q := by
  obtain ⟨offset, static⟩ := place
  cases q with
  | this =>
    simp only [ref, h, placed]
    cases static <;> rfl
  | name | member =>
    simp only [ref, h, placed]
    cases static <;> rfl

theorem assign_memberField {q : Ref} {id : Ident} {owner : String} {f : Field}
    {place : FieldPlace} {value : Expr} (h : layouts.field? owner f.name = some place) :
    assign layouts frame start value (.member q id (some (.field owner f))) =
      if place.isStatic || isThis q then
        (· ++ [.storeField place]) <$> expr layouts frame start value
      else do
        let object ← ref layouts frame q
        let code ← expr layouts frame (start + object.length + 1) value
        return object ++ [Item.literal (Word.ofNat place.offset)] ++ code ++
          [Item.prim .fieldupd] := by
  obtain ⟨offset, static⟩ := place
  cases q with
  | this =>
    simp only [assign, h, placed]
    cases static <;> rfl
  | name | member =>
    simp only [assign, h, placed]
    cases static <;> rfl

theorem makes_ref (hE : Laid E.classes layouts) (hframe : Covers frame vars) {d : Meaning}
    (h : E.Binds vars r d) (hv : r.isValue = true) : E.Makes (ref layouts frame r) := by
  induction h with
  | this hs => exact .of_items (by simp [Setting.Links, Item.this])
  | cls | method | memberMethod => cases hv
  | field hf hs =>
    obtain ⟨i, hi⟩ := hE.hasField hf
    simp only [ref, hi, placed]
    exact .of_items (by simp [Setting.Links, Item.loadField])
  | param hp => exact .of_items (by simp [Setting.Links, Item.loadVariable])
  | localVar hx =>
    simp only [ref, List.getElem?_eq_getElem (hframe _ hx), placed]
    exact .of_items (by simp [Setting.Links, Item.loadVariable])
  | length hq hk ht ih =>
    simp only [ref]
    refine (ih (isValue_of_array hq hk ht)).bind fun code hcode => .pure_append hcode ?_
    simp [Setting.Links, Item.prim]
  | memberField hq hk ht hf hs ih =>
    obtain ⟨i, hi⟩ := hE.hasField hf
    rw [ref_memberField hi]
    split
    · exact .of_items (by simp [Setting.Links, Item.loadField])
    · rename_i hstatic
      simp only [Bool.or_eq_true, not_or, Bool.not_eq_true] at hstatic
      obtain ⟨code, hcode, hlinks⟩ := ih (hs hstatic.1)
      rw [hcode]
      exact .pure_append hlinks (by simp [Setting.Links, Item.literal, Item.prim])

/-- The method of a call, and the code of the call after its arguments. -/
theorem makes_invoke (hE : Laid E.classes layouts) (hframe : Covers frame vars) {owner : String}
    {m : Signature} (h : E.Binds vars r (.method owner m)) :
    E.Makes (invoke layouts frame r owner m) := by
  have hmethod : E.HasMethod owner m := by
    cases h with
    | method hm _ => exact hm
    | memberMethod _ _ _ hm _ => exact hm
  unfold invoke
  split
  · exact .of_items (by simp [Setting.Links, Item.prim])
  · rename_i hprint
    have hlinks : ∃ m', E.HasMethod owner m' ∧ m'.name = m.name ∧ isPrintln owner m' = false :=
      ⟨m, hmethod, rfl, Bool.not_eq_true _ ▸ hprint⟩
    split
    · refine .of_items fun i hi => ?_
      cases List.mem_singleton.mp hi
      exact hlinks
    · rename_i hstatic
      have hreceiver : E.Makes (receiver layouts frame r) := by
        cases h with
        | method _ _ => exact .of_items (by simp [Setting.Links, Item.this])
        | memberMethod hq _ _ _ hs =>
          exact makes_ref hE hframe hq (hs (Bool.not_eq_true _ ▸ hstatic))
      refine hreceiver.bind fun code hcode => .pure_append hcode fun i hi => ?_
      cases List.mem_singleton.mp hi
      exact hlinks

theorem method_eq {owner : String} {m : Signature} (h : r.meaning = some (.method owner m)) :
    method r = .ok (owner, m) := by
  simp [method, h]

mutual

theorem makes_expr (hE : Laid E.classes layouts) (hframe : Covers frame vars) {e : Expr} {t : Ty}
    (h : E.ExprBound vars e) (ht : e.HasTy t)
    (start : Nat) : E.Makes (expr layouts frame start e) := by
  cases ht with
  | @unary op s e _ _ he =>
    simp only [expr]
    refine (makes_expr hE hframe (e := e) h he _).bind fun code hcode => .pure_append hcode ?_
    simp [Setting.Links, Item.prim]
  | @binary op s l r _ _ _ _ hl hr =>
    simp only [expr]
    refine (makes_expr hE hframe h.1 hl _).bind fun left hleft => ?_
    cases strategy op with
    | prim p =>
      refine (makes_expr hE hframe h.2 hr _).bind fun right hright => .of_items ?_
      simp_all [Setting.Links, Item.prim, or_imp]
    | shortCircuit decided =>
      refine (makes_expr hE hframe h.2 hr _).bind fun right hright => .of_items ?_
      simp_all [Setting.Links, Item.jumpIf, Item.jump, Item.literal, or_imp]
  | ref hr =>
    obtain ⟨d, hd⟩ := h
    exact makes_ref hE hframe hd hr.2
  | index hr hi =>
    obtain ⟨⟨d, hd⟩, hindex⟩ := h
    simp only [expr]
    refine (makes_ref hE hframe hd hr.2).bind fun array harray => ?_
    refine (makes_expr hE hframe hindex hi _).bind fun index hindex => .of_items ?_
    simp_all [Setting.Links, Item.prim, or_imp]
  | call hm hfit =>
    obtain ⟨⟨owner, m, hr⟩, hargs⟩ := h
    simp only [expr, method_eq hr.meaning_eq]
    refine (makes_exprs hE hframe hargs hfit _).bind fun values hvalues => ?_
    exact (makes_invoke hE hframe hr).bind fun code hcode => .pure_append hvalues hcode
  | literal => exact .of_items (by simp [Setting.Links, Item.literal])
  | newObject =>
    obtain ⟨layout, hlayout⟩ := hE.hasClass h
    simp only [expr, hlayout, placed]
    exact .of_items (by simp [Setting.Links, Item.literal])
  | @newArray elem size s hs =>
    simp only [expr]
    refine (makes_expr hE hframe (e := size) h hs _).bind fun code hcode => .pure_append hcode ?_
    simp [Setting.Links]

theorem makes_exprs (hE : Laid E.classes layouts) (hframe : Covers frame vars) {es : List Expr}
    {vs : List Variable} (h : E.ExprsBound vars es) (hfit : Expr.ArgsFit es vs) (start : Nat) :
    E.Makes (exprs layouts frame start es) := by
  cases hfit with
  | nil => exact .of_items nofun
  | cons he _ hfit =>
    simp only [exprs]
    refine (makes_expr hE hframe h.1 he _).bind fun first hfirst => ?_
    exact (makes_exprs hE hframe h.2 hfit _).bind fun rest hrest => .pure_append hfirst hrest

end

theorem makes_assign (hE : Laid E.classes layouts) (hframe : Covers frame vars) {value : Expr}
    {t u : Ty} (hr : E.RefBound vars r) (htarget : r.TargetTy t) (hvalue : E.ExprBound vars value)
    (hu : value.HasTy u) : E.Makes (assign layouts frame start value r) := by
  obtain ⟨d, hd⟩ := hr
  obtain ⟨d', hd', hplace, -⟩ := htarget
  cases hd.meaning_eq.symm.trans hd'
  have hcode (start : Nat) := makes_expr hE hframe hvalue hu start
  cases hd with
  | this | cls | method | length | memberMethod => cases hplace
  | field hf hs =>
    obtain ⟨i, hi⟩ := hE.hasField hf
    simp only [assign, hi, placed]
    exact (hcode _).bind fun code hcode =>
      .pure_append hcode (by simp [Setting.Links, Item.storeField])
  | param hp =>
    exact (hcode _).bind fun code hcode =>
      .pure_append hcode (by simp [Setting.Links, Item.storeVariable])
  | localVar hx =>
    simp only [assign, List.getElem?_eq_getElem (hframe _ hx), placed]
    exact (hcode _).bind fun code hcode =>
      .pure_append hcode (by simp [Setting.Links, Item.storeVariable])
  | memberField hq hk ht hf hs =>
    obtain ⟨i, hi⟩ := hE.hasField hf
    rw [assign_memberField hi]
    split
    · exact (hcode _).bind fun code hcode =>
        .pure_append hcode (by simp [Setting.Links, Item.storeField])
    · rename_i hstatic
      simp only [Bool.or_eq_true, not_or, Bool.not_eq_true] at hstatic
      refine (makes_ref hE hframe hq (hs hstatic.1)).bind fun object hobject => ?_
      refine (hcode _).bind fun code hcode => .of_items ?_
      simp_all [Setting.Links, Item.literal, Item.prim, or_imp]

/-- Code is made for statements that declare `count` locals, and the frame after them has places for
these, too. -/
def MakesAll (E : Setting) (frame : Frame) (count : Nat)
    (x : Except Fault (List Item × Frame)) : Prop :=
  ∃ code after, x = .ok (code, after) ∧ (∀ i ∈ code, E.Links i) ∧
    after.locals.length = frame.locals.length + count

theorem MakesAll.of_code {x : Made} {count : Nat} {after : Frame} (h : E.Makes x)
    (hcount : after.locals.length = frame.locals.length + count) :
    MakesAll E frame count (do return (← x, after)) := by
  obtain ⟨code, rfl, hcode⟩ := h
  exact ⟨code, after, rfl, hcode, hcount⟩

theorem covers_entry (params : Nat) : Covers (.entry params) [] := by
  intro x hx
  cases hx

theorem Covers.mono {frame after : Frame} (h : Covers frame vars)
    (hle : frame.locals.length ≤ after.locals.length) : Covers after vars :=
  fun x hx => Nat.lt_of_lt_of_le (h x hx) hle

theorem Covers.append {k : Nat} {v : Variable} (h : Covers frame vars)
    (hk : k < frame.locals.length) : Covers frame (vars ++ [(k, v)]) := by
  intro x hx
  rcases List.mem_append.mp hx with hx | hx
  · exact h x hx
  · cases List.mem_singleton.mp hx
    exact hk

variable {m : Signature}

mutual

theorem makes_stmt (hE : Laid E.classes layouts) (start : Nat) {frame : Frame} {vars : List Local}
    (hframe : Covers frame vars) {s : Stmt} (h : E.StmtBound frame.locals.length vars s)
    (ht : s.WellTyped m) : MakesAll E frame s.locals.length (stmt layouts start frame s) := by
  cases ht with
  | block hbody =>
    obtain ⟨code, inner, hmade, hcode, hlocals⟩ := makes_stmts hE start hframe h hbody
    simp only [stmt, hmade]
    refine ⟨_, _, rfl, ?_, hlocals⟩
    have hdrop (n : Nat) : ∀ i ∈ dropLocals n, E.Links i := by
      unfold dropLocals
      split <;> simp [Setting.Links, Item.drop]
    intro i hi
    exact (List.mem_append.mp hi).elim (hcode i) (hdrop _ i)
  | @declare v init s t hinit _ =>
    have hdeclare : Covers frame.declare (v.seenByInit frame.locals.length vars) := by
      have hold : Covers frame.declare vars := hframe.mono (by simp [Frame.declare])
      unfold Variable.seenByInit
      split
      · exact hold.append (by simp [Frame.declare])
      · exact hold
    exact .of_code (makes_expr hE hdeclare h hinit _) (by simp [Frame.declare, Stmt.locals])
  | assign hr hvalue _ => exact .of_code (makes_assign hE hframe h.1 hr h.2 hvalue) rfl
  | assignIndex hr hi hvalue _ =>
    obtain ⟨⟨d, hd⟩, hindex, hbound⟩ := h
    obtain ⟨array, harray, hlinks₁⟩ := makes_ref hE hframe hd hr.2
    obtain ⟨index, hindex, hlinks₂⟩ := makes_expr hE hframe hindex hi (start + array.length)
    obtain ⟨code, hcode, hlinks₃⟩ :=
      makes_expr hE hframe hbound hvalue (start + array.length + index.length)
    refine ⟨_, _, by simp [stmt, harray, hindex, hcode]; rfl, ?_, rfl⟩
    simp_all [Setting.Links, Item.prim, or_imp]
  | call hm hfit =>
    obtain ⟨⟨owner, callee, hr⟩, hargs⟩ := h
    obtain ⟨values, hvalues, hlinks₁⟩ := makes_exprs hE hframe hargs hfit start
    obtain ⟨code, hcode, hlinks₂⟩ := makes_invoke hE hframe hr
    refine ⟨values ++ code ++ dropResult callee, frame, ?_, ?_, rfl⟩
    · simp [stmt, method_eq hr.meaning_eq, hvalues, hcode]
    · have hdrop : ∀ i ∈ dropResult callee, E.Links i := by
        unfold dropResult
        split <;> simp [Setting.Links, Item.drop]
      simp_all [or_imp]
  | retNone => exact ⟨_, _, rfl, by simp [Setting.Links, Item.ret], rfl⟩
  | @ret value s t _ hvalue _ =>
    obtain ⟨code, hcode, hlinks⟩ := makes_expr hE hframe (e := value) h hvalue start
    refine ⟨code ++ [Item.ret 1 frame.params], frame, by simp [stmt, hcode], ?_, rfl⟩
    simp_all [Setting.Links, Item.ret, or_imp]
  | ifThen hc _ ht =>
    obtain ⟨test, htest, hlinks₁⟩ := makes_expr hE hframe h.1 hc start
    obtain ⟨code, after, hcode, hlinks₂, hlocals⟩ :=
      makes_stmt hE (start + test.length + 1) hframe h.2 ht
    refine ⟨_, after, by simp [stmt, htest, hcode]; rfl, ?_, hlocals⟩
    simp_all [Setting.Links, Item.jumpIf, or_imp]
  | @ifElse cond t e _ hc _ ht _ he =>
    obtain ⟨test, htest, hlinks₁⟩ := makes_expr hE hframe h.1 hc start
    obtain ⟨code, between, hcode, hlinks₂, hlocals₁⟩ :=
      makes_stmt hE (start + test.length + 1) hframe h.2.1 ht
    obtain ⟨other, after, hother, hlinks₃, hlocals₂⟩ :=
      makes_stmt hE (start + test.length + code.length + 2) (hframe.mono (by omega))
        (hlocals₁ ▸ h.2.2) he
    refine ⟨_, after, by simp [stmt, htest, hcode, hother]; rfl, ?_, ?_⟩
    · simp_all [Setting.Links, Item.jumpIf, Item.jump, or_imp]
    · simp [Stmt.locals]
      omega
  | loop hc _ hbody =>
    obtain ⟨code, after, hcode, hlinks₁, hlocals⟩ := makes_stmt hE (start + 1) hframe h.2 hbody
    obtain ⟨test, htest, hlinks₂⟩ :=
      makes_expr hE (hframe.mono (by omega : _ ≤ after.locals.length)) h.1 hc
        (start + 1 + code.length)
    refine ⟨_, after, by simp [stmt, htest, hcode]; rfl, ?_, hlocals⟩
    simp_all [Setting.Links, Item.jumpIf, Item.jump, or_imp]

theorem makes_stmts (hE : Laid E.classes layouts) (start : Nat) {frame : Frame} {vars : List Local}
    (hframe : Covers frame vars) {ss : List Stmt} (h : E.StmtsBound frame.locals.length vars ss)
    (ht : Stmt.AllWellTyped m ss) :
    MakesAll E frame (Stmt.localsOf ss).length (stmts layouts start frame ss) := by
  cases ht with
  | nil => exact ⟨[], frame, rfl, nofun, rfl⟩
  | @cons s ss hs hss =>
    obtain ⟨first, between, hfirst, hlinks₁, hlocals₁⟩ := makes_stmt hE start hframe h.1 hs
    have hbetween : Covers between (s.seen frame.locals.length vars) := by
      have hold : Covers between vars := hframe.mono (by omega)
      cases s with
      | declare v init sp => exact hold.append (by simp [hlocals₁, Stmt.locals])
      | _ => exact hold
    obtain ⟨rest, after, hrest, hlinks₂, hlocals₂⟩ :=
      makes_stmts hE (start + first.length) hbetween (hlocals₁ ▸ h.2) hss
    refine ⟨first ++ rest, after, ?_, ?_, ?_⟩
    · simp [stmts, hfirst, hrest]
    · simp_all [or_imp]
    · simp [Stmt.localsOf]
      omega

end

/-- Code is made for methods in turn, each with calls that name methods, and they keep their
names. -/
theorem makes_methodCodes {p : Program} (hp : p.Bound) (start : Nat) {ms : List (String × Method)}
    (h : ∀ x ∈ ms, (p.setting x.1 x.2).StmtsBound 0 [] x.2.body ∧ x.2.WellTyped) :
    ∃ codes, methodCodes p.classLayouts start ms = .ok codes ∧
      codes.map (·.key) = ms.map (fun x => ⟨x.1, x.2.name⟩) ∧
      ∀ code ∈ codes, ∀ i ∈ code.items, ∃ owner m, (p.setting owner m).Links i := by
  induction ms generalizing start with
  | nil => exact ⟨[], rfl, rfl, nofun⟩
  | cons x ms ih =>
    obtain ⟨owner, m⟩ := x
    obtain ⟨⟨hbound, hm⟩, hms⟩ := List.forall_mem_cons.mp h
    have hlaid : Laid (p.setting owner m).classes p.classLayouts := hp.laid
    obtain ⟨code, frame, hmade, hlinks, -⟩ :=
      makes_stmts hlaid start (covers_entry m.params.length) hbound hm.body
    obtain ⟨codes, hcodes, hkeys, hrest⟩ := ih (start + (code ++ closing m).length) hms
    refine ⟨⟨⟨owner, m.name⟩, start, frame.shrink Frame.linkSize, code ++ closing m⟩ :: codes, ?_,
      ?_,
      List.forall_mem_cons.mpr ⟨?_, hrest⟩⟩
    · rw [List.length_append] at hcodes
      simp [methodCodes, methodCode, hmade, hcodes]
    · simp [hkeys]
    · have hclosing : ∀ i ∈ closing m, (p.setting owner m).Links i := by
        unfold closing
        split <;> simp [Setting.Links, Item.ret]
      intro i hi
      exact ⟨owner, m, (List.mem_append.mp hi).elim (hlinks i) (hclosing i)⟩

theorem mapM_link_eq_ok {address : MethodKey → Option Nat} {items : List Item}
    (h : ∀ i ∈ items, ∃ instr, i.link address = .ok instr) :
    ∃ instrs, items.mapM (Item.link address) = .ok instrs := by
  induction items with
  | nil => exact ⟨[], rfl⟩
  | cons i items ih =>
    obtain ⟨⟨instr, hinstr⟩, hitems⟩ := List.forall_mem_cons.mp h
    obtain ⟨instrs, hinstrs⟩ := ih hitems
    exact ⟨instr :: instrs, by simp [List.mapM_cons, hinstr, hinstrs]⟩

end Generate

namespace Program

variable {p : Program}

theorem exists_method {E : Setting} (hE : E.classes = p.heads) {key : MethodKey}
    {callee : Signature} (h : E.HasMethod key.owner callee) (hname : callee.name = key.name)
    (hprint : isPrintln key.owner callee = false) : ∃ x ∈ p.methods, ⟨x.1, x.2.name⟩ = key := by
  obtain ⟨c, hc, howner, hm⟩ := h
  rw [hE] at hc
  obtain ⟨d, hd, rfl⟩ := List.mem_map.mp hc
  obtain ⟨method, hmethod, rfl⟩ := List.mem_map.mp hm
  rcases List.mem_append.mp hd with hd | hd
  · refine ⟨(d.name, method), List.mem_flatMap.mpr ⟨d, hd, List.mem_map_of_mem hmethod⟩, ?_⟩
    exact congr (congrArg MethodKey.mk howner) hname
  · simp only [Library.classes, List.mem_cons, List.not_mem_nil, or_false] at hd
    rcases hd with rfl | rfl | rfl
    · cases hmethod
    · cases List.mem_singleton.mp hmethod
      simp [isPrintln, ← howner, ClassDecl.head] at hprint
    · cases hmethod

theorem address_eq_some {d : Draft} {target : MethodKey} (h : target ∈ d.methods.map (·.key)) :
    ∃ a, d.address target = some a := by
  obtain ⟨code, hcode, rfl⟩ := List.mem_map.mp h
  have hfind : (d.methods.find? (·.key == code.key)).isSome := by
    rw [List.find?_isSome]
    exact ⟨code, hcode, by simp⟩
  obtain ⟨found, hfound⟩ := Option.isSome_iff_exists.mp hfind
  exact ⟨found.address, by simp [Draft.address, hfound]⟩

theorem generate_eq_ok (hp : p.Bound) (hty : p.WellTyped) {key : MethodKey}
    (hkey : p.EntersAt key) : ∃ code, p.generate (some key) = .ok code := by
  have hmethods : ∀ x ∈ p.methods, (p.setting x.1 x.2).StmtsBound 0 [] x.2.body ∧
      x.2.WellTyped := by
    intro x hx
    obtain ⟨c, hc, hx⟩ := List.mem_flatMap.mp hx
    obtain ⟨m, hm, rfl⟩ := List.mem_map.mp hx
    exact ⟨hp.bodies c hc m hm, hty.methods c hc m hm⟩
  obtain ⟨codes, hcodes, hkeys, hlinks⟩ :=
    makes_methodCodes hp (preamble p.staticCount key).length hmethods
  let d : Draft := ⟨p.classLayouts, preamble p.staticCount key, codes⟩
  have hcall (target : MethodKey) (h : ∃ x ∈ p.methods, ⟨x.1, x.2.name⟩ = target) :
      ∃ a, d.address target = some a := by
    obtain ⟨x, hx, rfl⟩ := h
    refine address_eq_some ?_
    rw [hkeys]
    exact List.mem_map.mpr ⟨x, hx, rfl⟩
  have hlink : ∀ i ∈ d.items, ∃ instr, i.link d.address = .ok instr := by
    intro i hi
    rcases List.mem_append.mp hi with hi | hi
    · simp only [d, preamble, List.mem_append, List.mem_replicate, List.mem_cons, List.not_mem_nil,
        or_false] at hi
      rcases hi with ⟨-, rfl⟩ | rfl | rfl | rfl | rfl
      · exact ⟨_, rfl⟩
      · exact ⟨_, rfl⟩
      · exact ⟨_, rfl⟩
      · obtain ⟨before, m, after, hsplit, hname, -⟩ := hkey
        obtain ⟨a, ha⟩ := hcall key ⟨(key.owner, m), by simp [hsplit], by rw [hname]⟩
        exact ⟨_, by simp only [Item.link, ha]; rfl⟩
      · exact ⟨_, rfl⟩
    · obtain ⟨code, hcode, hi⟩ := List.mem_flatMap.mp hi
      obtain ⟨owner, m, hlinks⟩ := hlinks code hcode i hi
      cases i with
      | instr instr => exact ⟨instr, rfl⟩
      | create kind => cases kind <;> exact ⟨_, rfl⟩
      | call target | callOn target =>
        obtain ⟨callee, hm, hname, hprint⟩ := hlinks
        obtain ⟨a, ha⟩ := hcall target (exists_method rfl hm hname hprint)
        exact ⟨_, by simp only [Item.link, ha]; rfl⟩
  obtain ⟨instrs, hinstrs⟩ := mapM_link_eq_ok hlink
  exact ⟨instrs.toArray, by simp [generate_eq_link, draft, hcodes, Draft.link, hinstrs, d]⟩

theorem generate_of_check {q : Program} (h : p.resolve = .ok q) (herrors : q.check.errors = []) :
    ∃ code, q.generate q.check.entry = .ok code := by
  obtain ⟨hty, key, hentry, hkey⟩ := wellTyped_of_check h herrors
  rw [hentry]
  exact generate_eq_ok (bound_of_resolve h) hty hkey

end Program

namespace Compile

theorem messages_check {p q : Program} (h : p.resolve = .ok q) :
    (∃ code, (check q).2 = .ok code ∧ (check q).1.filterMap Event.message? = []) ∨
      ((check q).2 = .error .invalidProgram ∧ (check q).1.filterMap Event.message? ≠ []) := by
  by_cases herrors : q.check.errors = []
  · obtain ⟨code, hcode⟩ := Program.generate_of_check h herrors
    exact .inl ⟨code, by simp [check, generate, herrors, hcode, Event.message?]⟩
  · refine .inr ?_
    obtain ⟨e, es, he⟩ := List.exists_cons_of_ne_nil herrors
    simp [check, he, Event.message?]

theorem messages_resolve (p : Program) :
    (∃ code, (resolve p).2 = .ok code ∧ (resolve p).1.filterMap Event.message? = []) ∨
      ((resolve p).2 = .error .invalidProgram ∧ (resolve p).1.filterMap Event.message? ≠ []) := by
  cases h : p.resolve with
  | error e => exact .inr (by simp [resolve_of_error h, Event.message?])
  | ok q => simpa [resolve_of_ok h, Event.message?] using messages_check h

end Compile

/-- Every source gets code or at least one message, never both, and no other failure: the generator
finds a place for all that it names, and patches only instructions that it has written. -/
theorem compile_verdict (source : Bytes) :
    ((∃ code, (compile source).code = .ok code) ↔ (compile source).messages = []) ∧
      ((compile source).code = .error .invalidProgram ↔ (compile source).messages ≠ []) ∧
      ∀ fault, (compile source).code ≠ .error (.generator fault) := by
  have hverdict : (∃ code, (compile source).code = .ok code ∧ (compile source).messages = []) ∨
      ((compile source).code = .error .invalidProgram ∧ (compile source).messages ≠ []) := by
    cases h : Program.parse source with
    | error e => exact .inr (by simp [compile, h, Compile.Outcome.messages, Compile.Event.message?])
    | ok p =>
      simpa [compile, h, Compile.Outcome.messages, Compile.Event.message?]
        using Compile.messages_resolve p
  rcases hverdict with ⟨code, hcode, hmessages⟩ | ⟨hcode, hmessages⟩
  · simp [hcode, hmessages]
  · simp [hcode, hmessages]

end MiniJava
