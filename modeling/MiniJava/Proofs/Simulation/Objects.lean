import MiniJava.Proofs.Generate.Control
import MiniJava.Proofs.Machine.Silent
import MiniJava.Proofs.Simulation.Safety
/-!
Methods reach the fields of their object through the object base. They find them on the heap as long
as no method is called on the null reference; a call on the null reference is not refused, and puts
the object base at the bottom of the stack.
-/
namespace MiniJava

open Generate

/-- Reads or writes a word at an offset from the current object. -/
def Instr.isFieldAccess (i : Instr) : Bool :=
  (i.op == Op.load.number || i.op == Op.store.number) && i.r == Reg.ob.number

namespace Generate

namespace Item

def isFieldAccess : Item → Bool
  | instr i => i.isFieldAccess
  | _ => false

@[simp] theorem isFieldAccess_prim (p : Prim) : (prim p).isFieldAccess = false := rfl
@[simp] theorem isFieldAccess_literal (v : Word) : (literal v).isFieldAccess = false := rfl
@[simp] theorem isFieldAccess_reserve (n : Nat) : (reserve n).isFieldAccess = false := rfl
@[simp] theorem isFieldAccess_drop (n : Nat) : (drop n).isFieldAccess = false := rfl
@[simp] theorem isFieldAccess_this : this.isFieldAccess = false := rfl
@[simp] theorem isFieldAccess_loadVariable (o : Int) : (loadVariable o).isFieldAccess = false := rfl
@[simp] theorem isFieldAccess_storeVariable (o : Int) : (storeVariable o).isFieldAccess = false :=
  rfl
@[simp] theorem isFieldAccess_jump (t : Nat) : (jump t).isFieldAccess = false := rfl
@[simp] theorem isFieldAccess_jumpIf (v : Word)
    (t : Nat) : (jumpIf v t).isFieldAccess = false := rfl
@[simp] theorem isFieldAccess_ret (n k : Nat) : (ret n k).isFieldAccess = false := rfl
@[simp] theorem isFieldAccess_halt : halt.isFieldAccess = false := rfl
@[simp] theorem isFieldAccess_call (key : MethodKey) : (call key).isFieldAccess = false := rfl
@[simp] theorem isFieldAccess_callOn (key : MethodKey) : (callOn key).isFieldAccess = false := rfl
@[simp] theorem isFieldAccess_create (kind : BlockKind) : (create kind).isFieldAccess = false := rfl

@[simp] theorem isFieldAccess_loadField (f : FieldPlace) :
    (loadField f).isFieldAccess = !f.isStatic := by
  obtain ⟨offset, _ | _⟩ := f <;> rfl

@[simp] theorem isFieldAccess_storeField (f : FieldPlace) :
    (storeField f).isFieldAccess = !f.isStatic := by
  obtain ⟨offset, _ | _⟩ := f <;> rfl

theorem link_isFieldAccess {address : MethodKey → Option Nat} {item : Item} {i : Instr}
    (h : item.link address = .ok i) (hi : i.isFieldAccess = true) : item = .instr i := by
  cases item with
  | instr i' => cases h; rfl
  | call key | callOn key =>
    simp only [link] at h
    split at h
    · cases h; cases hi
    · cases h
  | create kind => cases kind <;> cases h <;> cases hi

end Item

end Generate

variable {p : Program} {E : Setting}

/-- An instance method whose class has an instance field at an offset. -/
def Setting.HasOwnField (E : Setting) (offset : Nat) : Prop :=
  E.method.isStatic = false ∧ ∃ c ∈ E.classes, c.name = E.owner ∧ offset < (c.fieldsOf false).length

namespace Setting.IsIn

variable (hE : E.IsIn p) {vars : List Local} {d : Meaning} {id : Ident} {owner : String} {f : Field}
  {place : FieldPlace}

include hE

theorem hasOwnField (hf : E.HasField E.owner f)
    (hplace : p.classLayouts.field? E.owner f.name = some place)
    (hstatic : place.isStatic = false)
    (hm : f.isStatic = false → E.method.isStatic = false) : E.HasOwnField place.offset := by
  obtain ⟨c, hc, hname, hmem⟩ := hf
  rw [← hname] at hplace
  cases hs : f.isStatic with
  | true =>
    obtain ⟨i, hi, -⟩ := hE.laid.staticField c hc f hmem hs
    cases hplace.symm.trans hi
    cases hstatic
  | false =>
    obtain ⟨i, hi, -, hget⟩ := hE.laid.instanceField c hc f hmem hs
    cases hplace.symm.trans hi
    exact ⟨hm hs, c, hc, hname, (List.getElem?_eq_some_iff.mp hget).1⟩

theorem ownField_of_name (h : E.Binds vars (.name id (some (.field owner f))) d)
    (hplace : p.classLayouts.field? owner f.name = some place) (hstatic : place.isStatic = false) :
    E.HasOwnField place.offset := by
  cases h with
  | field hf hm => exact hE.hasOwnField hf hplace hstatic hm

theorem ownField_of_member {q : Ref} (h : E.Binds vars (.member q id (some (.field owner f))) d)
    (hplace : p.classLayouts.field? owner f.name = some place)
    (hown : (place.isStatic || isThis q) = true)
    (hstatic : place.isStatic = false) : E.HasOwnField place.offset := by
  rw [hstatic, Bool.false_or] at hown
  cases q with
  | this s dq =>
    cases h with
    | memberField hq _ hty hf _ =>
      cases hq with
      | this hm =>
        cases hty
        exact hE.hasOwnField hf hplace hstatic fun _ => hm
  | name | member => cases hown

end Setting.IsIn

namespace Generate

variable {P : Spot} {X : Phrase} {ps : List Piece}

/-- Only a field of the current object is reached through the object base. -/
theorem Pattern.own_fieldAccess (hX : Pattern p.classLayouts P X ps) (hE : E.IsIn p)
    (hsound : X.IsSound E P) :
    EachOwn (fun _ i _ => i.isFieldAccess = true → ∃ place : FieldPlace, place.isStatic = false ∧
      E.HasOwnField place.offset ∧ (i = .loadField place ∨ i = .storeField place)) P.start ps := by
  cases hX with
  | field hplace =>
    obtain ⟨-, d, hd⟩ := hsound
    simp only [eachOwn_item, eachOwn_nil, and_true, Item.isFieldAccess_loadField, Bool.not_eq_true']
    exact fun hs => ⟨_, hs, hE.ownField_of_name hd hplace hs, .inl rfl⟩
  | ownField hplace hown =>
    obtain ⟨-, d, hd⟩ := hsound
    simp only [eachOwn_item, eachOwn_nil, and_true, Item.isFieldAccess_loadField, Bool.not_eq_true']
    exact fun hs => ⟨_, hs, hE.ownField_of_member hd hplace hown hs, .inl rfl⟩
  | assignField hplace =>
    obtain ⟨-, ⟨⟨d, hd⟩, -⟩, -⟩ := hsound
    simp only [eachOwn_part, eachOwn_item, eachOwn_nil, and_true, Item.isFieldAccess_storeField,
      Bool.not_eq_true']
    exact fun hs => ⟨_, hs, hE.ownField_of_name hd hplace hs, .inr rfl⟩
  | assignOwnField hplace hown =>
    obtain ⟨-, ⟨⟨d, hd⟩, -⟩, -⟩ := hsound
    simp only [eachOwn_part, eachOwn_item, eachOwn_nil, and_true, Item.isFieldAccess_storeField,
      Bool.not_eq_true']
    exact fun hs => ⟨_, hs, hE.ownField_of_member hd hplace hown hs, .inr rfl⟩
  | _ => simp

end Generate

namespace Machine

/-- The next instruction reads or writes the word at an offset from the current object. -/
def TouchesOwn (code : Code) (s : State) (offset : Word) : Prop :=
  ∃ a, s.cp.index? code.size = some a ∧ (code.instr a).isFieldAccess = true ∧
    (code.instr a).d = offset

/-- The word at an offset from the current object is a field of an object on the heap, above all
words of the stack. -/
structure OwnsField (p : Program) (blocks : List (Word × BlockKind)) (s : State)
    (offset : Word) : Prop where
  object : ∃ c ∈ p.heads, (s.ob, .object c.name) ∈ blocks ∧ ∃ i < (c.fieldsOf false).length,
    offset = Word.ofNat i
  heap : ∃ t : Nat, s.ob + offset = Word.ofNat t ∧ t < memorySize ∧ s.st.toInt ≤ s.ht.toInt ∧
    s.ht.toInt ≤ t

end Machine

namespace Simulation

open Machine Semantics

variable {H : Host p} {A : Activation} {pc : Nat}

/-- Where the code of a method reaches a field of its object, the class of the method has the
field. -/
theorem Host.Resides.fieldAccess (h : H.Resides A pc 1) {item : Item} {scope : Option Scope}
    (hitem : H.items[pc]? = some (item, scope)) (haccess : item.isFieldAccess = true) :
    ∃ place : FieldPlace, place.isStatic = false ∧ (A.setting p).HasOwnField place.offset ∧
      (item = .loadField place ∨ item = .storeField place) := by
  obtain ⟨key, m, start, marked, after, vars, hm, hmethod, howner, hmade, ⟨rest, hrest⟩, hstart,
      hend⟩ := h
  obtain ⟨hmem, -⟩ := Program.method?_eq_some hm
  have hE := Program.isIn_setting H.accepted hmem
  have hbody := Program.isSound_body H.accepted hmem start
  have hsetting : p.setting key.owner m = A.setting p := by
    rw [Program.setting, Activation.setting, hmethod, howner]
  obtain ⟨-, hbound, htyped, -⟩ := hbody.phrase
  obtain ⟨code, after', hcode, -, -⟩ :=
    makes_stmts hE.laid start (covers_entry m.params.length) hbound htyped
  obtain ⟨marked', vars', hmarked, hfst⟩ := exists_scopedStmts [] hcode
  cases hmade.symm.trans hmarked
  obtain ⟨j, rfl⟩ := Nat.exists_eq_add_of_le hstart
  have hget : (code ++ closing m)[j]? = some item := by
    have hmarked : (inMethod m.params (marked ++ within vars (closing m))).map (·.1) =
        code ++ closing m := by
      simp [hfst]
    have hlt : j < (inMethod m.params (marked ++ within vars (closing m))).length := by
      rw [← List.length_map (f := (·.1)), hmarked, ← hfst, List.length_append, List.length_map]
      omega
    rw [← List.getElem?_drop, ← hrest, List.getElem?_append_left hlt] at hitem
    rw [← hmarked, List.getElem?_map, hitem]
    rfl
  rcases Nat.lt_or_ge j code.length with hlt | hge
  · rw [List.getElem?_append_left hlt] at hget
    obtain ⟨y, ps, height, hreach, hps, hown⟩ :=
      Part.exists_origin (bodyPart start m) (made_stmts.mpr ⟨after, hcode, rfl⟩) hget
    rw [← hsetting]
    exact (hps.pattern.own_fieldAccess hE (hreach.isSound hE hbody).phrase).of_mem hown haccess
  · rw [List.getElem?_append_right hge] at hget
    have hclosing : ∀ i ∈ closing m, i.isFieldAccess = false := by
      unfold closing
      split <;> simp
    rw [hclosing item (List.mem_of_getElem? hget)] at haccess
    cases haccess

end Simulation

theorem scopedMethods_isSome {classes : ClassLayouts} {start : Nat} {ms : List (String × Method)}
    {items : Annotated}
    (h : scopedMethods classes start ms = .ok items) : ∀ x ∈ items, x.2.isSome = true := by
  induction ms generalizing start items with
  | nil =>
    cases h
    simp
  | cons x ms ih =>
    rw [scopedMethods] at h
    obtain ⟨first, hfirst, h⟩ := Except.bind_eq_ok.mp h
    obtain ⟨rest, hrest, hitems⟩ := Except.bind_eq_ok.mp h
    cases hitems
    rw [scopedMethod] at hfirst
    obtain ⟨⟨code, after, vars⟩, -, hitems⟩ := Except.bind_eq_ok.mp hfirst
    cases hitems
    refine List.forall_mem_append.mpr ⟨fun y hy => ?_, ih hrest⟩
    obtain ⟨z, -, rfl⟩ := List.mem_map.mp hy
    rfl

theorem Program.annotated_outside {entry : MethodKey} {items : Annotated}
    (h : p.annotated entry = .ok items) {a : Nat} {item : Item}
    (hitem : items[a]? = some (item, none)) : item.isFieldAccess = false := by
  rw [Program.annotated] at h
  obtain ⟨methods, hmethods, hrest⟩ := Except.bind_eq_ok.mp h
  cases hrest
  rcases List.mem_append.mp (List.mem_of_getElem? hitem) with hmem | hmem
  · obtain ⟨item', hmem, heq⟩ := List.mem_map.mp hmem
    cases heq
    simp only [preamble, List.mem_append, List.mem_replicate, List.mem_cons, List.not_mem_nil,
      or_false] at hmem
    rcases hmem with ⟨-, rfl⟩ | rfl | rfl | rfl | rfl <;> rfl
  · cases scopedMethods_isSome hmethods _ hmem

namespace Simulation

open Machine Semantics

variable {H : Host p} {v : View} {s : State}

theorem Host.exists_item (hs : v.Shows s) {pc : Nat} (hcp : v.cp = Word.ofNat pc)
    {scope : Option Scope} (hscope : H.items.scopeAt pc = some scope) {a : Fin H.code.size}
    (ha : s.cp.index? H.code.size = some a) :
    ∃ item, H.items[pc]? = some (item, scope) ∧ item.link H.address = .ok (H.code.instr a) := by
  obtain ⟨⟨item, scope'⟩, hitem, heq⟩ := Option.map_eq_some_iff.mp hscope
  cases heq
  obtain ⟨i, hlink, hi⟩ := H.linked pc _ hitem
  obtain ⟨hlt, rfl⟩ := Array.getElem?_eq_some_iff.mp hi
  rw [hs.cp, hcp, Word.index?_ofNat hlt (Nat.lt_trans hlt H.small)] at ha
  cases ha
  exact ⟨item, hitem, hlink⟩

theorem exists_address {σ : Store} (hs : v.Shows s) (hheap : v.heap = heapImage σ.world σ.heap)
    (htyped : ∀ b ∈ σ.heap, b.Typed p.heads σ.world) {w : Word} {c : ClassHead} (hc : c ∈ p.heads)
    (hnames : (p.heads.map (·.name)).Nodup) (hlog : (w, .object c.name) ∈ σ.world.log) {i : Nat}
    (hi : i < (c.fieldsOf false).length) :
    ∃ t : Nat, w + Word.ofNat i = Word.ofNat t ∧ t < memorySize ∧ s.st.toInt ≤ s.ht.toInt ∧
      s.ht.toInt ≤ t := by
  obtain ⟨b, hb, hkind, a, rfl, hle, -, -, hcells⟩ := exists_logged hs hheap hlog
  have hcount := (htyped b hb).count c.name hkind
  rw [fieldCount?, Option.map_eq_some_iff] at hcount
  obtain ⟨c', hc', hcount⟩ := hcount
  have hname : c'.name = c.name := by simpa using List.find?_some hc'
  cases eq_of_nodup_map hnames (List.mem_of_find?_eq_some hc') hc hname
  have hlt : i < b.cells.length := by omega
  have hdata := (Array.getElem?_eq_some_iff.mp (hcells i _ (List.getElem?_eq_getElem hlt))).1
  have hroom := hs.room
  have hmem : memorySize = 65536 := rfl
  rw [hs.size] at hdata
  refine ⟨a + 2 + i, (Word.ofNat_add _ _).symm, hdata, ?_, ?_⟩
  · rw [hs.st, hs.ht, Word.toInt_ofNat (by omega), Word.toInt_ofNat (by rw [View.heapTop]; omega),
      View.heapTop]
    omega
  · rw [hs.ht, Word.toInt_ofNat (by rw [View.heapTop]; omega)]
    omega

/-- In a state that pictures an evaluation, a field that is reached through the object base lies on
the heap. -/
theorem ownsField_of_good {entry : MethodKey} (hitems : p.annotated entry = .ok H.items)
    {c : Config} (h : H.Good c) {offset : Word}
    (htouches : TouchesOwn H.code c.1 offset) : OwnsField p c.2 c.1 offset := by
  obtain ⟨σ, v, hs, hlog, hstands⟩ := h
  obtain ⟨a, ha, haccess, rfl⟩ := htouches
  cases hstands with
  | @within A env vars pc ops hA hscope hresides =>
    obtain ⟨item, hitem, hlink⟩ := Host.exists_item hs rfl hscope ha
    cases Item.link_isFieldAccess hlink haccess
    obtain ⟨⟨i, _⟩, rfl, ⟨hstatic, d, hd, hname, hlt⟩, hi⟩ := hresides.fieldAccess hitem haccess
    obtain ⟨hobject, hself, hhas⟩ := hA.self hstatic
    obtain ⟨l, n, hl, hshape⟩ := hhas.resolve_left hself
    have hmem : (A.object, .object d.name) ∈ σ.world.log := by
      rw [hobject, hl, hname]
      exact World.mem_log hshape
    have hoffset : (H.code.instr a).d = Word.ofNat i := by
      generalize H.code.instr a = instr at hi
      rcases hi with hi | hi <;> cases hi <;> rfl
    have hob : c.1.ob = A.object := hs.ob
    have hlogged : (c.1.ob, .object d.name) ∈ c.2 := by
      rw [hob, hlog]
      exact hmem
    rw [hoffset]
    refine ⟨⟨d, hd, hlogged, i, hlt, rfl⟩, ?_⟩
    rw [hob]
    exact exists_address hs rfl hA.store.blocks hd H.accepted.bound.classNames hmem hlt
  | outside hout hscope =>
    obtain ⟨item, hitem, hlink⟩ := Host.exists_item hs rfl hscope ha
    cases Item.link_isFieldAccess hlink haccess
    cases (Program.annotated_outside hitems hitem).symm.trans haccess

end Simulation

namespace Machine

variable {V : Word → Prop} {code : Code} {s s' : State}

theorem pop_eq_ok {w : Word} (h : pop s = .ok w s') : w = s.top := by
  unfold pop at h
  split at h
  · cases h
  · unfold State.top
    simp only at h
    split at h
    · rename_i i hi
      cases h
      rw [hi]
      rfl
    · cases h

theorem State.top_silent (s : State) : s.silent.top = s.top := by
  unfold State.top
  cases h : (s.st - 1).index? s.data.size with
  | none =>
    have h' : (s.silent.st - 1).index? s.silent.data.size = none := h
    rw [h']
  | some i =>
    have h' : (s.silent.st - 1).index? s.silent.data.size = some i := h
    rw [h']
    rfl

theorem callsNull_silent : CallsNull code s.silent ↔ CallsNull code s := by
  rw [CallsNull, CallsNull, State.top_silent]
  rfl

theorem callsNull_leaves (hcode : ∀ a, Emitted V (code.instr a)) (h : CallsNull code s)
    {a : Fin code.size} (ha : s.cp.index? code.size = some a)
    (he : execute code.size (code.instr a) s = .ok () s') : s'.ob = 0 := by
  obtain ⟨a', ha', hop, htop⟩ := h
  cases ha.symm.trans ha'
  have hemitted := hcode a
  generalize code.instr a = i at hop he hemitted
  obtain ⟨t, u, hu, rfl⟩ := execute_eq_ok he
  cases hemitted with
  | callOn d =>
    obtain ⟨object, s₁, hobject, hu⟩ := EStateM.bind_eq_ok.mp hu
    obtain ⟨target, _, htarget, hu⟩ := EStateM.bind_eq_ok.mp hu
    cases htarget
    obtain ⟨-, hob, -⟩ := call_eq_ok hu
    exact hob.trans ((pop_eq_ok hobject).trans htop)
  | _ => exact absurd hop (Instr.of_op_ne (by decide))

/-- Blocks are created whatever becomes of the output. -/
theorem blocksMade_silent (hcode : ∀ a, Emitted V (code.instr a)) {items : Annotated}
    {n steps : Nat} (h : (run code n steps s).ending = .outOfFuel) :
    blocksMade items code n s.silent = blocksMade items code n s := by
  induction n generalizing steps s with
  | zero => rfl
  | succ n ih =>
    obtain ⟨a, s', ha, hop, he, hrun⟩ := run_first h
    have he' := unheard_execute (hcode a) code.size s () s' he
    have ha' : s.silent.cp.index? code.size = some a := ha
    rw [hrun] at h
    simp only [blocksMade, ha, ha', hop, if_false, he, he', ih h, created, State.top_silent]

end Machine

open Machine Simulation

variable {source : Bytes} {entry : MethodKey} {code : Code}

/-- Without an output, fields that are reached through the object base lie on the heap. -/
theorem ownsField_of_run (h : p.IsBuilt source entry code) (hcode : code.size < 2 ^ 63)
    (hfields : ∀ c ∈ p.heads, c.fields.length < 2 ^ 63) (input : Option Input) {n : Nat}
    (hend : (run code n 0 (.initial input .discard)).ending = .outOfFuel)
    (hnull : ∀ k < n, ¬ CallsNull code (run code k 0 (.initial input .discard)).state) :
    ∃ items, p.annotated entry = .ok items ∧ ∀ offset,
      TouchesOwn code (run code n 0 (.initial input .discard)).state offset →
        OwnsField p (blocksMade items code n (.initial input .discard))
          (run code n 0 (.initial input .discard)).state offset := by
  obtain ⟨H, rfl, rfl, houtput, hitems, hpreamble⟩ :=
    exists_host h hcode hfields input .discard (by rintro _ _ ⟨⟩)
  obtain ⟨k, c, hpath, hgood, hstops⟩ := exists_path h (opens_of_preamble hpreamble) houtput n
  have hk : n ≤ k := by
    by_contra hlt
    obtain ⟨m, rfl⟩ := Nat.exists_eq_add_of_lt (Nat.lt_of_not_le hlt)
    have hgoes {e : Ending} (hstop : (run H.code (k + 1) 0 (.initial H.input .discard)).ending = e)
        (he : e ≠ .outOfFuel) : False := by
      rw [run_eq_of_le (by omega : k + 1 ≤ k + m + 1) (by rw [hstop]; exact he), hstop] at hend
      exact he hend
    rcases hstops.resolve_left hlt with hcalls | ⟨f, out, -, hfails⟩ | hhalts
    · refine hnull k (by omega) ?_
      rw [hpath.outOfFuel]
      exact hcalls
    · exact hgoes (hpath.fails hfails).1 Ending.noConfusion
    · exact hgoes (hpath.halts hhalts).1 Ending.noConfusion
  obtain ⟨c₁, hpath₁, hpath₂⟩ := hpath.split hk
  have hblocks := hpath₁.blocksMade 0
  simp only [blocksMade, List.append_nil, List.nil_append, Nat.add_zero] at hblocks
  refine ⟨H.items, hitems, fun offset htouches => ?_⟩
  rw [hpath₁.outOfFuel] at htouches ⊢
  rw [hblocks]
  exact ownsField_of_good hitems (hpath₂.good hgood) htouches

/-- Up to the first call on the null reference, each field that is read or written through the
object base is a field of an object on the heap. A call on the null reference that goes on puts the
object base at the bottom of the stack. -/
theorem Program.own_fields_on_heap (h : p.IsBuilt source entry code) (hcode : code.size < 2 ^ 63)
    (hfields : ∀ c ∈ p.heads, c.fields.length < 2 ^ 63) (input : Option Input) (sink : Sink)
    (n : Nat) (hend : (run code n 0 (.initial input sink)).ending = .outOfFuel) :
    ((∀ k < n, ¬ CallsNull code (run code k 0 (.initial input sink)).state) →
      ∃ items, p.annotated entry = .ok items ∧ ∀ offset,
        TouchesOwn code (run code n 0 (.initial input sink)).state offset →
          OwnsField p (blocksMade items code n (.initial input sink))
            (run code n 0 (.initial input sink)).state offset) ∧
    (CallsNull code (run code n 0 (.initial input sink)).state →
      (run code (n + 1) 0 (.initial input sink)).ending = .outOfFuel →
      (run code (n + 1) 0 (.initial input sink)).state.ob = 0) := by
  refine ⟨fun hnull => ?_, fun hcalls hnext => ?_⟩
  · have hsilent {k : Nat} (hk : k ≤ n) : run code k 0 (.initial input .discard) =
        { run code k 0 (.initial input sink) with
          state := (run code k 0 (.initial input sink)).state.silent } :=
      run_silent h.emitted (by
        by_contra hstops
        rw [run_eq_of_le hk hstops] at hend
        exact hstops hend)
    obtain ⟨items, hitems, howns⟩ := ownsField_of_run h hcode hfields input (n := n)
      (by rw [hsilent (Nat.le_refl n)]; exact hend)
      (fun k hk => by rw [hsilent (Nat.le_of_lt hk), callsNull_silent]; exact hnull k hk)
    refine ⟨items, hitems, fun offset htouches => ?_⟩
    rw [hsilent (Nat.le_refl n), ← State.initial_silent input sink,
      blocksMade_silent h.emitted hend] at howns
    obtain ⟨hobject, hheap⟩ := howns offset htouches
    exact ⟨hobject, hheap⟩
  · obtain ⟨a, ha, he⟩ := run_last hnext
    exact callsNull_leaves h.emitted hcalls ha he

/-- The program `class A { static int s; int v; public static void main(String[] a) { s = 3; A n =
null; n.set(7); System.out.println(s); } void set(int x) { v = x; } }`. -/
def callsOnNull : Bytes :=
  ("class A \x7b static int s; int v; public static void main(String[] a) \x7b " ++
    "s = 3; A n = null; n.set(7); System.out.println(s); \x7d " ++
      "void set(int x) \x7b v = x; \x7d \x7d").toUTF8.toList

def callsOnNullCode : Code :=
  #[.of .push 0 .zr 1, .of .push 0 .zr 1, .of .loadl 0 .zr 0, .prim .newarr, .of .call 0 .cb 6,
    .of .halt 0 .zr 0,
    .of .loadl 0 .zr 3, .of .store 0 .sb 0, .of .loadl 0 .zr 0, .of .loadl 0 .zr 7,
    .of .load 0 .lb 3,
    .of .calli 0 .cb 15, .of .load 0 .sb 0, .prim .putintnl, .of .ret 0 .zr 1, .of .load 0 .lb (-1),
    .of .store 0 .ob 0, .of .ret 0 .zr 1]

/-- The states of that program in its entry method. -/
def callsOnNullView (static : Word) (operands : List Word) (cp : Word) : View :=
  ⟨[static, 0, 65536, 0, 0, 5] ++ operands, [arrayClass, 0], 3, 0, cp, none, { sink := .accept }⟩

/-- The states of that program in the method that it calls. -/
def callsOnNullInner (static : Word) (operands : List Word) (cp : Word) : View :=
  ⟨[static, 0, 65536, 0, 0, 5, 0, 7, 0, 3, 12] ++ operands, [arrayClass, 0], 8, 0, cp, none,
    { sink := .accept }⟩

/-- The run comes to a call on the null reference, goes on in the method, and overwrites the static
field. -/
theorem callsOnNull_reaches :
    Reaches callsOnNullCode 10 (callsOnNullView 3 [0, 7, 0] 11) ∧
      Reaches callsOnNullCode 11 (callsOnNullInner 3 [] 15) ∧
      Reaches callsOnNullCode 12 (callsOnNullInner 3 [7] 16) ∧
      Reaches callsOnNullCode 13 (callsOnNullInner 7 [] 17) := by
  have h₅ : Reaches callsOnNullCode 5 (callsOnNullView 0 [] 6) := by
    refine reaches_main (k := 2) (a := 6) (by decide) (by decide) (fun j hj => ?_) rfl rfl rfl
    obtain _ | _ | j := j
    · rfl
    · rfl
    · omega
  have h₆ : Reaches callsOnNullCode 6 (callsOnNullView 0 [3] 7) :=
    h₅.step 6 rfl rfl (by decide) (by decide) (does_literal (fun h => absurd h (by decide)) rfl)
  have h₇ : Reaches callsOnNullCode 7 (callsOnNullView 3 [] 8) :=
    h₆.step 7 rfl rfl (by decide) (by decide)
      (does_storeStack (i := 0) (by decide) (show _ = [0, 0, 65536, 0, 0, 5] ++ [3] from rfl) rfl
        (by decide) rfl)
  have h₈ : Reaches callsOnNullCode 8 (callsOnNullView 3 [0] 9) :=
    h₇.step 8 rfl rfl (by decide) (by decide) (does_literal (fun h => absurd h (by decide)) rfl)
  have h₉ : Reaches callsOnNullCode 9 (callsOnNullView 3 [0, 7] 10) :=
    h₈.step 9 rfl rfl (by decide) (by decide) (does_literal (fun h => absurd h (by decide)) rfl)
  have h₁₀ : Reaches callsOnNullCode 10 (callsOnNullView 3 [0, 7, 0] 11) :=
    h₉.step 10 rfl rfl (by decide) (by decide)
      (does_loadStack (i := 6) (by decide) rfl rfl (fun h => absurd h (by decide)) rfl)
  have h₁₁ : Reaches callsOnNullCode 11 (callsOnNullInner 3 [] 15) :=
    h₁₀.step 11 rfl rfl (by decide) (by decide) (does_callCodeOn
      (show _ = [3, 0, 65536, 0, 0, 5, 0, 7] ++ [0] from rfl) (fun h => absurd h (by decide)) rfl)
  have h₁₂ : Reaches callsOnNullCode 12 (callsOnNullInner 3 [7] 16) :=
    h₁₁.step 15 rfl rfl (by decide) (by decide)
      (does_loadStack (i := 7) (by decide) rfl rfl (fun h => absurd h (by decide)) rfl)
  have h₁₃ : Reaches callsOnNullCode 13 (callsOnNullInner 7 [] 17) :=
    h₁₂.step 16 rfl rfl (by decide) (by decide) (does_storeStack (i := 0) (by decide)
      (show _ = [3, 0, 65536, 0, 0, 5, 0, 7, 0, 3, 12] ++ [7] from rfl) rfl (by decide) rfl)
  exact ⟨h₁₀, h₁₁, h₁₂, h₁₃⟩

theorem callsOnNull_built : ∃ (p : Program) (entry : MethodKey),
    p.IsBuilt callsOnNull entry callsOnNullCode ∧ ∀ c ∈ p.heads, c.fields.length < 2 ^ 63 := by
  have hbuild :
      (Program.build? callsOnNull).map
      (fun x => (x.1.heads.all (·.fields.length < 2 ^ 63), x.2.2)) =
        some (true, callsOnNullCode) := by decide +kernel
  obtain ⟨⟨p, entry, code⟩, hp, hx⟩ := Option.map_eq_some_iff.mp hbuild
  obtain ⟨hfields, rfl⟩ := Prod.mk.inj hx
  simp only [List.all_eq_true, decide_eq_true_eq] at hfields
  exact ⟨p, entry, Program.isBuilt_of_build? hp, hfields⟩

theorem callsOnNull_leaves :
    ∃ (p : Program) (entry : MethodKey), p.IsBuilt callsOnNull entry callsOnNullCode ∧
      CallsNull callsOnNullCode (run callsOnNullCode 10 0 (.initial none .accept)).state ∧
      (run callsOnNullCode 11 0 (.initial none .accept)).state.ob = 0 := by
  obtain ⟨p, entry, hbuilt, hfields⟩ := callsOnNull_built
  obtain ⟨s, hs, hrun⟩ := callsOnNull_reaches.1.outOfFuel
  obtain ⟨s', hs', hrun'⟩ := callsOnNull_reaches.2.1.outOfFuel
  have hcalls : CallsNull callsOnNullCode s := ⟨⟨11, by decide⟩, by rw [hs.cp]; rfl, rfl, hs.top⟩
  have hsize : callsOnNullCode.size < 2 ^ 63 := by decide
  obtain ⟨-, hleaves⟩ :=
    Program.own_fields_on_heap hbuilt hsize hfields none .accept 10 (by rw [hrun])
  rw [show 10 + 1 = 11 from rfl, hrun, hrun'] at hleaves
  rw [hrun, hrun']
  exact ⟨p, entry, hbuilt, hcalls, hleaves hcalls rfl⟩

/-- The method that is called on the null reference writes its field to the word of a static
field. -/
theorem callsOnNull_overwrites :
    ∃ (p : Program) (entry : MethodKey), p.IsBuilt callsOnNull entry callsOnNullCode ∧
      ∃ s s' : State, (run callsOnNullCode 12 0 (.initial none .accept)) = ⟨s, 12, .outOfFuel⟩ ∧
        TouchesOwn callsOnNullCode s 0 ∧ s.ob + 0 = 0 ∧ 0 < s.st.toInt ∧ 0 < s.ht.toInt ∧
        s.data[0]? = some 3 ∧
        (run callsOnNullCode 13 0 (.initial none .accept)) = ⟨s', 13, .outOfFuel⟩ ∧
        s'.data[0]? = some 7 := by
  obtain ⟨p, entry, hbuilt, -⟩ := callsOnNull_built
  obtain ⟨s, hs, hrun⟩ := callsOnNull_reaches.2.2.1.outOfFuel
  obtain ⟨s', hs', hrun'⟩ := callsOnNull_reaches.2.2.2.outOfFuel
  refine ⟨p, entry, hbuilt, s, s', hrun, ⟨⟨16, by decide⟩, by rw [hs.cp]; rfl, rfl, rfl⟩, by
    rw [hs.ob]; rfl,
    by rw [hs.st]; decide, by rw [hs.ht]; decide, ?_, hrun', ?_⟩
  · exact shows_stack hs rfl
  · exact shows_stack hs' rfl

end MiniJava
