import MiniJava.Proofs.Generate.Frames
import MiniJava.Proofs.Machine.Invariant
import MiniJava.Proofs.Syntax.Literals
/-!
The code of a program, method by method, and the instructions that occur in it.
-/
namespace MiniJava

namespace Generate

variable {classes : ClassLayouts}

/-- An address of the code of a method. -/
def MethodCode.Spans (mc : MethodCode) (a : Nat) : Prop :=
  mc.address ≤ a ∧ a < mc.address + mc.items.length

/-- The code of methods takes the addresses from `start` to `stop`, one method after the other. -/
def Consecutive (start stop : Nat) : List MethodCode → Prop
  | [] => start = stop
  | mc :: codes => mc.address = start ∧ Consecutive (start + mc.items.length) stop codes

theorem consecutive_of_methodCodes {start : Nat} {ms : List (String × Method)}
    {codes : List MethodCode} (h : methodCodes classes start ms = .ok codes) :
    Consecutive start (start + (codes.flatMap (·.items)).length) codes := by
  induction ms generalizing start codes with
  | nil => cases h; rfl
  | cons x ms ih =>
    obtain ⟨owner, m⟩ := x
    rw [methodCodes] at h
    obtain ⟨first, hfirst, h⟩ := Except.bind_eq_ok.mp h
    obtain ⟨rest, hrest, hcodes⟩ := Except.bind_eq_ok.mp h
    cases hcodes
    obtain ⟨body, frame, -, rfl⟩ := methodCode_eq_ok hfirst
    have hnext := ih hrest
    rw [Nat.add_assoc, ← List.length_append] at hnext
    exact ⟨rfl, hnext⟩

namespace Consecutive

variable {start stop : Nat} {codes : List MethodCode}

theorem codeAt {before : List Item} (h : Consecutive before.length stop codes) :
    ∀ mc ∈ codes, CodeAt (before ++ codes.flatMap (·.items)) mc.address mc.items := by
  induction codes generalizing before with
  | nil => nofun
  | cons mc codes ih =>
    obtain ⟨haddress, hrest⟩ := h
    rw [← List.length_append] at hrest
    rw [List.flatMap_cons, ← List.append_assoc]
    refine List.forall_mem_cons.mpr ⟨?_, ih hrest⟩
    rw [CodeAt, haddress, List.append_assoc, List.drop_left]
    exact List.prefix_append _ _

theorem exists_method (h : Consecutive start stop codes) {k : Nat} {i : Item}
    (hi : (codes.flatMap (·.items))[k]? = some i) :
    ∃ mc ∈ codes, ∃ j, mc.items[j]? = some i ∧ mc.address + j = start + k := by
  induction codes generalizing start k with
  | nil => cases hi
  | cons mc codes ih =>
    obtain ⟨haddress, hrest⟩ := h
    rw [List.flatMap_cons] at hi
    rcases Nat.lt_or_ge k mc.items.length with hk | hk
    · rw [List.getElem?_append_left hk] at hi
      exact ⟨mc, List.mem_cons_self, k, hi, by rw [haddress]⟩
    · rw [List.getElem?_append_right hk] at hi
      obtain ⟨mc', hmc', j, hj, ha⟩ := ih hrest hi
      exact ⟨mc', List.mem_cons_of_mem _ hmc', j, hj, by omega⟩

theorem le_stop (h : Consecutive start stop codes) :
    start ≤ stop ∧ ∀ mc ∈ codes, mc.address + mc.items.length ≤ stop := by
  induction codes generalizing start with
  | nil => exact ⟨Nat.le_of_eq h, nofun⟩
  | cons mc codes ih =>
    obtain ⟨haddress, hrest⟩ := h
    obtain ⟨hle, hcodes⟩ := ih hrest
    exact ⟨by omega, List.forall_mem_cons.mpr ⟨by omega, hcodes⟩⟩

theorem start_le (h : Consecutive start stop codes) : ∀ mc ∈ codes, start ≤ mc.address := by
  induction codes generalizing start with
  | nil => nofun
  | cons mc codes ih =>
    refine List.forall_mem_cons.mpr ⟨Nat.le_of_eq h.1.symm, fun mc' hmc' => ?_⟩
    have := ih h.2 mc' hmc'
    omega

theorem disjoint (h : Consecutive start stop codes) :
    ∀ mc ∈ codes, ∀ mc' ∈ codes, ∀ a, mc.Spans a → mc'.Spans a → mc = mc' := by
  induction codes generalizing start with
  | nil => nofun
  | cons first codes ih =>
    obtain ⟨haddress, hrest⟩ := h
    have hlater {mc : MethodCode} (hmc : mc ∈ codes) {a : Nat} (ha : mc.Spans a) :
        ¬ first.Spans a := by
      intro hfirst
      have := hrest.start_le mc hmc
      have := ha.1
      have := hfirst.2
      omega
    intro mc hmc mc' hmc' a ha ha'
    rcases List.mem_cons.mp hmc with heq | hin
    · rcases List.mem_cons.mp hmc' with heq' | hin'
      · rw [heq, heq']
      · exact absurd (heq ▸ ha) (hlater hin' ha')
    · rcases List.mem_cons.mp hmc' with heq' | hin'
      · exact absurd (heq' ▸ ha') (hlater hin ha)
      · exact ih hrest mc hin mc' hin' a ha ha'

theorem covers (h : Consecutive start stop codes) {a : Nat} (ha : start ≤ a) (ha' : a < stop) :
    ∃ mc ∈ codes, mc.Spans a := by
  induction codes generalizing start with
  | nil => exact absurd ha' (by rw [← (h : start = stop)]; omega)
  | cons first codes ih =>
    obtain ⟨haddress, hrest⟩ := h
    rcases Nat.lt_or_ge a (start + first.items.length) with hlt | hge
    · exact ⟨first, List.mem_cons_self, by rw [haddress]; exact ha, by rw [haddress]; exact hlt⟩
    · obtain ⟨mc, hmc, hspans⟩ := ih hrest hge
      exact ⟨mc, List.mem_cons_of_mem _ hmc, hspans⟩

end Consecutive

theorem methodCode_key {start : Nat} {owner : String} {m : Method} {mc : MethodCode}
    (h : methodCode classes start owner m = .ok mc) : mc.key = ⟨owner, m.name⟩ := by
  obtain ⟨body, frame, -, rfl⟩ := methodCode_eq_ok h
  rfl

theorem find?_code {ms : List (String × Method)} {codes : List MethodCode} {key : MethodKey}
    {x : String × Method}
    (h : List.Forall₂ (fun x mc => methodCode classes mc.address x.1 x.2 = .ok mc) ms codes)
    (hx : ms.find? (fun x => (⟨x.1, x.2.name⟩ : MethodKey) == key) = some x) :
    ∃ mc, codes.find? (·.key == key) = some mc ∧ (x, mc) ∈ ms.zip codes := by
  induction h with
  | nil => cases hx
  | @cons y mc ms codes hmc _ ih =>
    rw [List.find?_cons] at hx ⊢
    rw [methodCode_key hmc]
    split at hx
    · cases hx
      exact ⟨mc, rfl, List.mem_cons_self⟩
    · obtain ⟨mc', hfind, hmem⟩ := ih hx
      exact ⟨mc', hfind, List.mem_cons_of_mem _ hmem⟩

/-- The literals of a phrase. -/
def Phrase.literals : Phrase → List Literal
  | .ref _ => []
  | .expr e => e.literals
  | .exprs es | .call _ es => Expr.literalsOf es
  | .stmt s => s.literals
  | .stmts ss => Stmt.literalsOf ss

theorem Pattern.literals_subset {P : Spot} {X : Phrase} {ps : List Piece}
    (hX : Pattern classes P X ps) : EachPart (fun y _ => y.phrase.literals ⊆ X.literals) ps := by
  cases hX <;> simp [Phrase.literals, Expr.literals, Expr.literalsOf, Stmt.literals,
    Stmt.literalsOf]

theorem Part.Reaches.literals_subset {x y : Part} (hxy : x.Reaches classes y) :
    y.phrase.literals ⊆ x.phrase.literals := by
  induction hxy with
  | self => exact List.Subset.refl _
  | piece _ hps hz ih => exact List.Subset.trans (hps.pattern.literals_subset _ _ hz) ih

/-- An item that becomes an instruction of generated code. -/
def Item.Emits (V : Word → Prop) (item : Item) : Prop :=
  ∀ address i, item.link address = .ok i → Machine.Emitted V i

namespace Item

variable {V : Word → Prop}

theorem emits_instr {i : Instr} (h : Machine.Emitted V i) : (instr i).Emits V := by
  rintro address i' ⟨⟩
  exact h

@[simp] theorem emits_prim {p : Prim}
    (h : p ∈ Machine.emitted) : (prim p).Emits V := emits_instr (.prim h)
@[simp] theorem emits_literal {v : Word} (h : V v) : (literal v).Emits V := emits_instr (.literal h)
@[simp] theorem emits_reserve (n : Nat) : (reserve n).Emits V := emits_instr (.reserve _)
@[simp] theorem emits_drop (n : Nat) : (drop n).Emits V := emits_instr (.drop _)
@[simp] theorem emits_this : this.Emits V := emits_instr .this
@[simp] theorem emits_loadField (p : FieldPlace) : (loadField p).Emits V := emits_instr (.load _ _)
@[simp] theorem emits_storeField (p : FieldPlace) : (storeField p).Emits V :=
  emits_instr (.store _ _)
@[simp] theorem emits_loadVariable (o : Int) : (loadVariable o).Emits V := emits_instr (.load _ _)
@[simp] theorem emits_storeVariable (o : Int) : (storeVariable o).Emits V :=
  emits_instr (.store _ _)
@[simp] theorem emits_jump (t : Nat) : (jump t).Emits V := emits_instr (.jump _)
@[simp] theorem emits_jumpIf (v : Word) (t : Nat) : (jumpIf v t).Emits V :=
  emits_instr (.jumpIf _ _)
@[simp] theorem emits_ret (n k : Nat) : (ret n k).Emits V := emits_instr (.ret _ _)
@[simp] theorem emits_halt : halt.Emits V := emits_instr .halt

@[simp] theorem emits_call (key : MethodKey) : (call key).Emits V := by
  intro address i h
  simp only [link] at h
  split at h
  · cases h; exact .call _
  · cases h

@[simp] theorem emits_callOn (key : MethodKey) : (callOn key).Emits V := by
  intro address i h
  simp only [link] at h
  split at h
  · cases h; exact .callOn _
  · cases h

@[simp] theorem emits_create (kind : BlockKind) : (create kind).Emits V := by
  intro address i h
  cases kind <;> cases h <;> exact .prim (by decide)

end Item

/-- The numbers that generated code pushes, apart from literals of the source, have the property
`V`. -/
structure Pushes (V : Word → Prop) (classes : ClassLayouts) : Prop where
  truth : ∀ b, V (Word.ofBool b)
  mark : V (-1)
  size : ∀ {name l}, classes.find? name = some l → V (Word.ofNat l.size)
  offset : ∀ {owner name place}, classes.field? owner name = some place → place.isStatic = false →
    V (Word.ofNat place.offset)

theorem strategy_emitted {op : BinaryOp} {p : Prim}
    (h : strategy op = .prim p) : p ∈ Machine.emitted := by
  cases op <;> cases h <;> decide

theorem strategy_decided {op : BinaryOp} {decided : Word}
    (h : strategy op = .shortCircuit decided) : ∃ b, decided = Word.ofBool b := by
  cases op with
  | or => cases h; exact ⟨true, rfl⟩
  | and => cases h; exact ⟨false, rfl⟩
  | _ => cases h

theorem unaryPrim_emitted (op : UnaryOp) : unaryPrim op ∈ Machine.emitted := by
  cases op <;> decide

theorem Pattern.own_emits {V : Word → Prop} (hV : Pushes V classes) {P : Spot} {X : Phrase}
    {ps : List Piece} (hX : Pattern classes P X ps)
    (hliterals : ∀ l ∈ X.literals, V (Word.ofNat l.value)) :
    EachOwn (fun _ i _ => i.Emits V) P.start ps := by
  cases hX with
  | binary left right hop => simp [strategy_emitted hop]
  | unary => simp [unaryPrim_emitted]
  | shortCircuit left right hop =>
    obtain ⟨b, rfl⟩ := strategy_decided hop
    simp [hV.truth b]
  | literal => simp [hliterals _ List.mem_cons_self]
  | newObject hlayout => simp [hV.mark, hV.size hlayout]
  | memberField hplace hown | assignMember object code hplace hown =>
    rw [Bool.or_eq_false_iff] at hown
    simp (disch := decide) [Item.emits_literal (hV.offset hplace hown.1)]
  | length | index | print | assignIndex => simp (disch := decide)
  | _ => simp

end Generate

open Generate

/-- A method of a program with its code. -/
def Program.HasCode (p : Program) (d : Draft) (x : String × Method) (mc : MethodCode) : Prop :=
  (x, mc) ∈ p.methods.zip d.methods

theorem Program.mem_literals {p : Program} {x : String × Method} (hx : x ∈ p.methods) {l : Literal}
    (hl : l ∈ Stmt.literalsOf x.2.body) : l ∈ p.literals := by
  obtain ⟨c, hc, hx⟩ := List.mem_flatMap.mp hx
  obtain ⟨m, hm, rfl⟩ := List.mem_map.mp hx
  exact List.mem_flatMap.mpr ⟨c, hc, List.mem_flatMap.mpr ⟨m, hm, hl⟩⟩

section Draft

variable {p : Program} {entry : MethodKey} {d : Draft}

theorem Program.HasCode.mem {x : String × Method} {mc : MethodCode} (h : p.HasCode d x mc) :
    x ∈ p.methods ∧ mc ∈ d.methods := List.of_mem_zip h

theorem Program.HasCode.made (hd : p.draft entry = .ok d) {x : String × Method} {mc : MethodCode}
    (h : p.HasCode d x mc) : methodCode p.classLayouts mc.address x.1 x.2 = .ok mc :=
  (List.forall₂_iff_zip.mp (methodCodes_eq_ok (Program.draft_eq_ok hd).2.2)).2 h

theorem Program.exists_hasCode (hd : p.draft entry = .ok d) {mc : MethodCode}
    (hmc : mc ∈ d.methods) : ∃ x, p.HasCode d x mc := by
  have hlength := (List.forall₂_iff_zip.mp (methodCodes_eq_ok (Program.draft_eq_ok hd).2.2)).1
  obtain ⟨j, hj⟩ := List.mem_iff_getElem?.mp hmc
  have hlt := (List.getElem?_eq_some_iff.mp hj).1
  refine ⟨p.methods[j], List.mem_iff_getElem?.mpr ⟨j, ?_⟩⟩
  rw [List.getElem?_zip_eq_some]
  exact ⟨List.getElem?_eq_getElem (by omega), hj⟩

/-- What is found under a key among the methods has its code under that key. -/
theorem Program.exists_address (hd : p.draft entry = .ok d) {key : MethodKey} {m : Method}
    (hm : p.method? key = some m) :
    ∃ mc, p.HasCode d (key.owner, m) mc ∧ d.address key = some mc.address := by
  obtain ⟨⟨owner, m⟩, hx, rfl⟩ := Option.map_eq_some_iff.mp hm
  obtain ⟨mc, hfind, hmem⟩ := find?_code (methodCodes_eq_ok (Program.draft_eq_ok hd).2.2) hx
  have hkey := List.find?_some hx
  simp only [beq_iff_eq] at hkey
  subst hkey
  exact ⟨mc, hmem, by rw [Draft.address, hfind]; rfl⟩

theorem Program.consecutive (hd : p.draft entry = .ok d) :
    Consecutive (p.staticCount + 4) d.items.length d.methods := by
  obtain ⟨-, hpreamble, hcodes⟩ := Program.draft_eq_ok hd
  have hlength : d.preamble.length = p.staticCount + 4 := by rw [hpreamble, preamble]; simp
  have := consecutive_of_methodCodes hcodes
  rw [Draft.items, List.length_append]
  rw [hlength] at this ⊢
  exact this

theorem Generate.Draft.exists_item {code : Code} (hlink : d.link = .ok code) {a : Nat} {i : Instr}
    (hi : code[a]? = some i) : ∃ item, d.items[a]? = some item ∧ item.link d.address = .ok i := by
  obtain ⟨instrs, hinstrs, hrest⟩ := Except.bind_eq_ok.mp hlink
  cases hrest
  rw [List.getElem?_toArray] at hi
  have hlt := (List.getElem?_eq_some_iff.mp hi).1
  rw [← length_of_mapM hinstrs] at hlt
  obtain ⟨i', hlinked, hi'⟩ := getElem?_of_mapM hinstrs (List.getElem?_eq_getElem hlt)
  cases hi.symm.trans hi'
  exact ⟨_, List.getElem?_eq_getElem hlt, hlinked⟩

theorem Generate.Draft.size_eq {code : Code}
    (hlink : d.link = .ok code) : code.size = d.items.length := by
  obtain ⟨instrs, hinstrs, hrest⟩ := Except.bind_eq_ok.mp hlink
  cases hrest
  rw [List.size_toArray, length_of_mapM hinstrs]

theorem Program.item_cases (hd : p.draft entry = .ok d) {a : Nat} {item : Item}
    (hitem : d.items[a]? = some item) :
    (preamble p.staticCount entry)[a]? = some item ∨
      ∃ x mc j, p.HasCode d x mc ∧ mc.items[j]? = some item ∧ mc.address + j = a := by
  obtain ⟨-, hpreamble, hcodes⟩ := Program.draft_eq_ok hd
  rw [Draft.items] at hitem
  rcases Nat.lt_or_ge a d.preamble.length with ha | ha
  · rw [List.getElem?_append_left ha, hpreamble] at hitem
    exact .inl hitem
  · rw [List.getElem?_append_right ha] at hitem
    obtain ⟨mc, hmc, j, hj, hja⟩ := (consecutive_of_methodCodes hcodes).exists_method hitem
    obtain ⟨x, hx⟩ := Program.exists_hasCode hd hmc
    exact .inr ⟨x, mc, j, hx, hj, by omega⟩

theorem Program.emitted_code {V : Word → Prop} (hV : Pushes V p.classLayouts)
    (hliterals : ∀ l ∈ p.literals, V (Word.ofNat l.value)) (hd : p.draft entry = .ok d)
    {code : Code} (hlink : d.link = .ok code) {a : Nat} {i : Instr}
    (hi : code[a]? = some i) : Machine.Emitted V i := by
  obtain ⟨item, hitem, hlinked⟩ := Draft.exists_item hlink hi
  refine (?_ : item.Emits V) _ _ hlinked
  rcases Program.item_cases hd hitem with hpre | ⟨x, mc, j, hx, hj, -⟩
  · have hmem := List.mem_of_getElem? hpre
    simp only [preamble, List.mem_append, List.mem_replicate, List.mem_cons, List.not_mem_nil,
      or_false] at hmem
    rcases hmem with ⟨-, rfl⟩ | rfl | rfl | rfl | rfl
    · exact Item.emits_reserve 1
    · exact Item.emits_literal (hV.truth false)
    · exact Item.emits_create _
    · exact Item.emits_call entry
    · exact Item.emits_halt
  · obtain ⟨body, frame, hbody, hmc⟩ := methodCode_eq_ok (hx.made hd)
    have hitems : mc.items = body ++ closing x.2 := by rw [hmc]
    rw [hitems] at hj
    rcases Nat.lt_or_ge j body.length with hlt | hge
    · rw [List.getElem?_append_left hlt] at hj
      have hmade : (bodyPart mc.address x.2).made p.classLayouts = .ok (body, frame.size) :=
        made_stmts.mpr ⟨frame, hbody, rfl⟩
      obtain ⟨y, ps, height, hreach, hps, hown⟩ := Part.exists_origin _ hmade hj
      refine (hps.pattern.own_emits hV fun l hl => hliterals l ?_).of_mem hown
      exact Program.mem_literals hx.mem.1 (hreach.literals_subset hl)
    · rw [List.getElem?_append_right hge] at hj
      have hmem := List.mem_of_getElem? hj
      unfold closing at hmem
      split at hmem
      · cases hmem
      · cases List.mem_singleton.mp hmem
        exact Item.emits_ret _ _

theorem Program.emitted_any (hd : p.draft entry = .ok d) {code : Code} (hlink : d.link = .ok code)
    {a : Nat} {i : Instr} (hi : code[a]? = some i) : Machine.Emitted (fun _ => True) i :=
  Program.emitted_code ⟨fun _ => trivial, trivial, fun _ => trivial, fun _ _ => trivial⟩
    (fun _ _ => trivial) hd hlink hi

theorem Program.IsBuilt.emitted {source : Bytes} {code : Code} (h : p.IsBuilt source entry code)
    (a : Fin code.size) : Machine.Emitted (fun _ => True) (code.instr a) := by
  obtain ⟨d, hd, hlink⟩ := h.exists_draft
  exact Program.emitted_any hd hlink (Array.getElem?_eq_getElem a.isLt)

end Draft

end MiniJava
