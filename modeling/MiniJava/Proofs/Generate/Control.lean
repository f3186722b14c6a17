import MiniJava.Proofs.Generate.Linked
/-!
Control stays within the code of a method. Jumps go to addresses of the method in which they stand,
calls go to the first address of the method that their reference denotes, and every method ends with
a return.
-/
namespace MiniJava

namespace Generate

namespace Item

def isJump : Item → Bool
  | instr i => i.isJump
  | _ => false

def isCall : Item → Bool
  | instr i => i.isCall
  | call _ | callOn _ => true
  | create _ => false

/-- A jump to an address. -/
def JumpsTo (i : Item) (target : Nat) : Prop := i = .jump target ∨ ∃ v, i = .jumpIf v target

@[simp] theorem isJump_prim (p : Prim) : (prim p).isJump = false := rfl
@[simp] theorem isJump_literal (v : Word) : (literal v).isJump = false := rfl
@[simp] theorem isJump_reserve (n : Nat) : (reserve n).isJump = false := rfl
@[simp] theorem isJump_drop (n : Nat) : (drop n).isJump = false := rfl
@[simp] theorem isJump_this : this.isJump = false := rfl
@[simp] theorem isJump_loadField (p : FieldPlace) : (loadField p).isJump = false := rfl
@[simp] theorem isJump_storeField (p : FieldPlace) : (storeField p).isJump = false := rfl
@[simp] theorem isJump_loadVariable (o : Int) : (loadVariable o).isJump = false := rfl
@[simp] theorem isJump_storeVariable (o : Int) : (storeVariable o).isJump = false := rfl
@[simp] theorem isJump_ret (n k : Nat) : (ret n k).isJump = false := rfl
@[simp] theorem isJump_call (key : MethodKey) : (call key).isJump = false := rfl
@[simp] theorem isJump_callOn (key : MethodKey) : (callOn key).isJump = false := rfl
@[simp] theorem isJump_create (kind : BlockKind) : (create kind).isJump = false := rfl

@[simp] theorem isCall_prim (p : Prim) : (prim p).isCall = false := rfl
@[simp] theorem isCall_literal (v : Word) : (literal v).isCall = false := rfl
@[simp] theorem isCall_reserve (n : Nat) : (reserve n).isCall = false := rfl
@[simp] theorem isCall_drop (n : Nat) : (drop n).isCall = false := rfl
@[simp] theorem isCall_this : this.isCall = false := rfl
@[simp] theorem isCall_loadField (p : FieldPlace) : (loadField p).isCall = false := rfl
@[simp] theorem isCall_storeField (p : FieldPlace) : (storeField p).isCall = false := rfl
@[simp] theorem isCall_loadVariable (o : Int) : (loadVariable o).isCall = false := rfl
@[simp] theorem isCall_storeVariable (o : Int) : (storeVariable o).isCall = false := rfl
@[simp] theorem isCall_jump (t : Nat) : (jump t).isCall = false := rfl
@[simp] theorem isCall_jumpIf (v : Word) (t : Nat) : (jumpIf v t).isCall = false := rfl
@[simp] theorem isCall_ret (n k : Nat) : (ret n k).isCall = false := rfl
@[simp] theorem isCall_create (kind : BlockKind) : (create kind).isCall = false := rfl

theorem link_isJump {address : MethodKey → Option Nat} {item : Item} {i : Instr}
    (h : item.link address = .ok i) (hjump : i.isJump = true) : item = .instr i := by
  cases item with
  | instr i' => cases h; rfl
  | call key | callOn key =>
    simp only [link] at h
    split at h
    · cases h; cases hjump
    · cases h
  | create kind => cases kind <;> cases h <;> cases hjump

theorem link_isCall {address : MethodKey → Option Nat} {item : Item} {i : Instr}
    (h : item.link address = .ok i) (hcall : i.isCall = true) : item.isCall = true := by
  cases item with
  | instr i' => cases h; exact hcall
  | call key | callOn key => rfl
  | create kind => cases kind <;> cases h <;> cases hcall

end Item

variable {classes : ClassLayouts} {P : Spot} {X : Phrase} {ps : List Piece}

/-- A jump of a phrase's own stays within the code of the phrase, or goes right behind it. -/
theorem Pattern.own_jump (hX : Pattern classes P X ps) :
    EachOwn (fun _ i _ => i.isJump = true → ∃ t, i.JumpsTo t ∧ P.start ≤ t ∧
      t ≤ P.start + (assembled ps).length)
      P.start ps := by
  cases hX with
  | shortCircuit left right hop =>
    simp only [eachOwn_part, eachOwn_item, eachOwn_nil, assembled_part, assembled_item,
      assembled_nil, List.length_append, List.length_cons, List.length_nil]
    exact ⟨fun _ => ⟨_, .inr ⟨_, rfl⟩, by omega, by omega⟩,
      fun _ => ⟨_, .inl rfl, by omega, by omega⟩, by simp⟩
  | ifThen test code =>
    simp only [eachOwn_part, eachOwn_item, eachOwn_nil, assembled_part, assembled_item,
      assembled_nil, List.length_append, List.length_cons, List.length_nil]
    exact ⟨fun _ => ⟨_, .inr ⟨_, rfl⟩, by omega, by omega⟩, trivial⟩
  | ifElse test other hcode =>
    simp only [eachOwn_part, eachOwn_item, eachOwn_nil, assembled_part, assembled_item,
      assembled_nil, List.length_append, List.length_cons, List.length_nil]
    exact ⟨fun _ => ⟨_, .inr ⟨_, rfl⟩, by omega, by omega⟩,
      fun _ => ⟨_, .inl rfl, by omega, by omega⟩, trivial⟩
  | loop test hcode =>
    simp only [eachOwn_part, eachOwn_item, eachOwn_nil, assembled_part, assembled_item,
      assembled_nil, List.length_append, List.length_cons, List.length_nil]
    exact ⟨fun _ => ⟨_, .inl rfl, by omega, by omega⟩,
      fun _ => ⟨_, .inr ⟨_, rfl⟩, by omega, by omega⟩, trivial⟩
  | _ => exact EachOwn.of_not (by simp)

/-- A call is the last instruction of a call phrase whose reference denotes the method. -/
theorem Pattern.own_call (hX : Pattern classes P X ps) :
    EachOwn (fun a i _ => i.isCall = true → ∃ r args owner m, X = .call r args ∧
        r.meaning = some (.method owner m) ∧ isPrintln owner m = false ∧
        i = (if m.isStatic then .call ⟨owner, m.name⟩ else .callOn ⟨owner, m.name⟩) ∧
        a + 1 = P.start + (assembled ps).length)
      P.start ps := by
  cases hX with
  | callStatic hm hprint hstatic =>
    simp only [eachOwn_part, eachOwn_item, eachOwn_nil, and_true]
    intro _
    exact ⟨_, _, _, _, rfl, hm, hprint, by simp [hstatic], by simp [Nat.add_assoc]⟩
  | callMember values object hprint hstatic =>
    simp only [eachOwn_part, eachOwn_item, eachOwn_nil, and_true]
    intro _
    exact ⟨_, _, _, _, rfl, rfl, hprint, by simp [hstatic], by simp [Nat.add_assoc]⟩
  | callOwn hm hmember hprint hstatic =>
    simp only [eachOwn_part, eachOwn_item, eachOwn_nil, and_true]
    refine ⟨by simp, fun _ => ?_⟩
    exact ⟨_, _, _, _, rfl, hm, hprint, by simp [hstatic], by simp [Nat.add_assoc]⟩
  | _ => exact EachOwn.of_not (by simp)

/-- A jump in the code of a part stays within that code, or goes right behind it. -/
theorem Part.jump_stays {x : Part} {code : List Item} {h j : Nat} {i : Item}
    (hx : x.made classes = .ok (code, h)) (hi : code[j]? = some i) (hjump : i.isJump = true) :
    ∃ t, i.JumpsTo t ∧ x.spot.start ≤ t ∧ t ≤ x.spot.start + code.length := by
  obtain ⟨y, ps, height, hxy, hps, hown⟩ := x.exists_origin hx hi
  obtain ⟨code', h', hy, hle, hle'⟩ := hxy.bounds hx
  obtain ⟨t, ht, hlo, hhi⟩ := hps.pattern.own_jump.of_mem hown hjump
  rw [hps.assembled hy] at hhi
  exact ⟨t, ht, by omega, by omega⟩

/-- Code that ends with a return, and whose jumps do not leave it. -/
structure IsClosed (start : Nat) (code : List Item) : Prop where
  returns : ∃ init results args, code = init ++ [.ret results args]
  jumps : ∀ (j : Nat) i, code[j]? = some i → i.isJump = true →
    ∃ t, i.JumpsTo t ∧ start ≤ t ∧ t < start + code.length

/-- A return behind code from which no jump goes further than that. -/
theorem IsClosed.snoc {start : Nat} {code : List Item} {results args : Nat}
    (hjumps : ∀ (j : Nat) i, code[j]? = some i → i.isJump = true →
      ∃ t, i.JumpsTo t ∧ start ≤ t ∧ t ≤ start + code.length) :
    IsClosed start (code ++ [Item.ret results args]) := by
  refine ⟨⟨_, _, _, rfl⟩, fun j i hi hjump => ?_⟩
  rcases Nat.lt_or_ge j code.length with hj | hj
  · rw [List.getElem?_append_left hj] at hi
    obtain ⟨t, ht, hlo, hhi⟩ := hjumps j i hi hjump
    exact ⟨t, ht, hlo, by simp only [List.length_append, List.length_singleton]; omega⟩
  · rw [List.getElem?_append_right hj, List.getElem?_singleton] at hi
    split at hi
    · cases hi
      cases hjump
    · cases hi

theorem isClosed_ret {start : Nat} {frame after : Frame} {value : Option Expr} {sp : Span}
    {code : List Item}
    (h : stmt classes start frame (.ret value sp) = .ok (code, after)) : IsClosed start code := by
  cases value with
  | none =>
    cases h
    change IsClosed start ([] ++ [Item.ret 0 frame.params])
    exact .snoc nofun
  | some value =>
    rw [stmt] at h
    obtain ⟨code, hcode, hrest⟩ := Except.bind_eq_ok.mp h
    cases hrest
    refine IsClosed.snoc fun j i hi hjump => ?_
    exact Part.jump_stays (x := ⟨⟨start, frame, [], 0⟩, .expr value⟩) (made_expr.mpr ⟨hcode, rfl⟩)
      hi hjump

theorem isClosed_stmts {start : Nat} {frame after : Frame} {ss : List Stmt} {value : Option Expr}
    {sp : Span} {code : List Item} (hlast : ss.getLast? = some (.ret value sp))
    (h : stmts classes start frame ss = .ok (code, after)) : IsClosed start code := by
  induction ss generalizing start frame code with
  | nil => cases hlast
  | cons s ss ih =>
    rw [stmts] at h
    obtain ⟨⟨first, between⟩, hfirst, h⟩ := Except.bind_eq_ok.mp h
    obtain ⟨⟨rest, after⟩, hrest, hcode⟩ := Except.bind_eq_ok.mp h
    cases hcode
    cases ss with
    | nil =>
      cases hlast
      cases hrest
      rw [List.append_nil]
      exact isClosed_ret hfirst
    | cons s' ss =>
      rw [List.getLast?_cons_cons] at hlast
      obtain ⟨⟨init, results, args, hinit⟩, hjumps⟩ := ih hlast hrest
      have hpos : 0 < rest.length := by rw [hinit]; simp
      refine ⟨⟨first ++ init, results, args, by rw [hinit, List.append_assoc]⟩,
        fun j i hi hjump => ?_⟩
      rw [List.length_append]
      rcases Nat.lt_or_ge j first.length with hj | hj
      · rw [List.getElem?_append_left hj] at hi
        obtain ⟨t, ht, hlo, hhi⟩ := Part.jump_stays (x := ⟨⟨start, frame, [], 0⟩, .stmt s⟩)
          (made_stmt.mpr ⟨between, hfirst, rfl⟩) hi hjump
        exact ⟨t, ht, hlo, Nat.lt_of_le_of_lt hhi (by simp only []; omega)⟩
      · rw [List.getElem?_append_right hj] at hi
        obtain ⟨t, ht, hlo, hhi⟩ := hjumps _ i hi hjump
        exact ⟨t, ht, by omega, by omega⟩

theorem isClosed_method {owner : String} {m : Method} {mc : MethodCode}
    (h : methodCode classes mc.address owner m = .ok mc) : IsClosed mc.address mc.items := by
  obtain ⟨body, frame, hbody, hmc⟩ := methodCode_eq_ok h
  have hitems : mc.items = body ++ closing m := by rw [hmc]
  rw [hitems]
  unfold closing
  split
  · rename_i value sp hlast
    rw [List.append_nil]
    exact isClosed_stmts hlast hbody
  · refine IsClosed.snoc fun j i hi hjump => ?_
    exact Part.jump_stays (x := bodyPart mc.address m) (made_stmts.mpr ⟨frame, hbody, rfl⟩) hi hjump

end Generate

open Generate Machine

section Draft

variable {p : Program} {entry : MethodKey} {d : Draft}

theorem preamble_cases {statics a : Nat} {item : Item}
    (h : (preamble statics entry)[a]? = some item) :
    item = .call entry ∧ a = statics + 2 ∨ item.isJump = false ∧ item.isCall = false := by
  unfold preamble at h
  rcases Nat.lt_or_ge a statics with ha | ha
  · rw [List.getElem?_append_left (by simpa using ha), List.getElem?_replicate_of_lt ha] at h
    cases h
    exact .inr ⟨rfl, rfl⟩
  · obtain ⟨k, rfl⟩ := Nat.exists_eq_add_of_le ha
    rw [List.getElem?_append_right (by simp), List.length_replicate, Nat.add_sub_cancel_left] at h
    rcases k with _ | _ | _ | _ | k
    · cases h; exact .inr ⟨rfl, rfl⟩
    · cases h; exact .inr ⟨rfl, rfl⟩
    · cases h; exact .inl ⟨rfl, rfl⟩
    · cases h; exact .inr ⟨rfl, rfl⟩
    · cases h

/-- The last instruction of a call phrase, whose reference denotes a method, goes to the first
address of the method. -/
structure Program.Calls (p : Program) (d : Draft) (y : Part) (a : Nat) (i : Instr) : Prop where
  phrase : ∃ r args owner m, y.phrase = .call r args ∧ r.meaning = some (.method owner m) ∧
    ∃ m' mc, p.HasCode d (owner, m') mc ∧ m'.toSignature = m ∧
      i = .of (if m.isStatic then .call else .calli) 0 .cb (Word.ofNat mc.address)
  last : ∃ code h, y.made p.classLayouts = .ok (code, h) ∧ a + 1 = y.spot.start + code.length

/-- Control of a program stays within its methods, but for calls and returns. -/
structure Program.ControlCloses (p : Program) (entry : MethodKey) (d : Draft)
    (code : Code) : Prop where
  ranges : Consecutive (p.staticCount + 4) code.size d.methods
  disjoint : ∀ mc ∈ d.methods, ∀ mc' ∈ d.methods, ∀ a, mc.Spans a → mc'.Spans a → mc = mc'
  covers : ∀ a, p.staticCount + 4 ≤ a → a < code.size → ∃ mc ∈ d.methods, mc.Spans a
  halts : code[p.staticCount + 3]? = some (.of .halt 0 .zr 0)
  enters : ∃ m mc, p.HasCode d (entry.owner, m) mc ∧ m.name = entry.name ∧ m.IsEntry ∧
    code[p.staticCount + 2]? = some (.of .call 0 .cb (Word.ofNat mc.address))
  returns : ∀ mc ∈ d.methods, ∃ results args, 0 < mc.items.length ∧
    code[mc.address + mc.items.length - 1]? =
      some (.of .ret (Word.ofNat results) .zr (Word.ofNat args))
  jumps : ∀ (a : Nat) i, code[a]? = some i → i.isJump = true → i.r = Reg.cb.number ∧
    ∃ mc ∈ d.methods, ∃ t, mc.Spans a ∧ mc.Spans t ∧ i.d = Word.ofNat t
  calls : ∀ (a : Nat) i, code[a]? = some i → i.isCall = true → a = p.staticCount + 2 ∨
    ∃ x mc y, p.HasCode d x mc ∧ mc.Spans a ∧ (bodyPart mc.address x.2).Reaches p.classLayouts y ∧
      p.Calls d y a i
  stays : ∀ mc ∈ d.methods, ∀ (a : Nat) i s s', mc.Spans a → code[a]? = some i → i.isCall = false →
    i.op ≠ Op.ret.number → s.cp = Word.ofNat a → execute code.size i s = .ok () s' →
    ∃ t, mc.Spans t ∧ s'.cp = Word.ofNat t
  resolved : code.size < 2 ^ 63 → ∀ (a : Nat) i, code[a]? = some i → (i.isJump || i.isCall) = true →
    i.d ≠ -1

section Closed

variable {code : Code}

theorem Program.jumps_close (hd : p.draft entry = .ok d) (hlink : d.link = .ok code) {a : Nat}
    {i : Instr} (hi : code[a]? = some i) (hjump : i.isJump = true) :
    i.r = Reg.cb.number ∧ ∃ mc ∈ d.methods, ∃ t, mc.Spans a ∧ mc.Spans t ∧ i.d = Word.ofNat t := by
  obtain ⟨item, hitem, hlinked⟩ := Draft.exists_item hlink hi
  cases Item.link_isJump hlinked hjump
  rcases Program.item_cases hd hitem with hpre | ⟨x, mc, j, hx, hj, rfl⟩
  · rcases preamble_cases hpre with ⟨heq, -⟩ | ⟨hno, -⟩
    · cases heq
    · exact absurd hjump (by rw [show i.isJump = false from hno]; exact Bool.false_ne_true)
  · obtain ⟨t, ht, hspans⟩ := (isClosed_method (hx.made hd)).jumps j _ hj hjump
    have hlt := (List.getElem?_eq_some_iff.mp hj).1
    rcases ht with heq | ⟨v, heq⟩
    · cases heq
      exact ⟨rfl, mc, hx.mem.2, t, ⟨by omega, by omega⟩, hspans, rfl⟩
    · cases heq
      exact ⟨rfl, mc, hx.mem.2, t, ⟨by omega, by omega⟩, hspans, rfl⟩

theorem Program.exists_target (hp : p.Accepted) (hd : p.draft entry = .ok d) {E : Setting}
    (hE : E.classes = p.heads) {owner : String} {m : Signature} (hm : E.HasMethod owner m)
    (hprint : isPrintln owner m = false) :
    ∃ m' mc, p.HasCode d (owner, m') mc ∧ m'.toSignature = m ∧
      d.address ⟨owner, m.name⟩ = some mc.address := by
  obtain ⟨m', hfound, hsignature⟩ := hp.bound.exists_method? hE hm hprint
  obtain ⟨mc, hmc, haddress⟩ := Program.exists_address hd hfound
  exact ⟨m', mc, hmc, hsignature, haddress⟩

theorem Program.calls_close (hp : p.Accepted) (hd : p.draft entry = .ok d)
    (hlink : d.link = .ok code) {a : Nat} {i : Instr} (hi : code[a]? = some i)
    (hcall : i.isCall = true) :
    a = p.staticCount + 2 ∨ ∃ x mc y, p.HasCode d x mc ∧ mc.Spans a ∧
      (bodyPart mc.address x.2).Reaches p.classLayouts y ∧ p.Calls d y a i := by
  obtain ⟨item, hitem, hlinked⟩ := Draft.exists_item hlink hi
  have hcall := Item.link_isCall hlinked hcall
  rcases Program.item_cases hd hitem with hpre | ⟨x, mc, j, hx, hj, rfl⟩
  · rcases preamble_cases hpre with ⟨-, rfl⟩ | ⟨-, hno⟩
    · exact .inl rfl
    · exact absurd hcall (by rw [hno]; exact Bool.false_ne_true)
  · refine .inr ⟨x, mc, ?_⟩
    have hlt := (List.getElem?_eq_some_iff.mp hj).1
    obtain ⟨body, frame, hbody, hmc⟩ := methodCode_eq_ok (hx.made hd)
    have hitems : mc.items = body ++ closing x.2 := by rw [hmc]
    have hclosing : ∀ item ∈ closing x.2, item.isCall = false := by
      unfold closing
      split <;> simp
    rw [hitems] at hj
    rcases Nat.lt_or_ge j body.length with hlt' | hge
    · rw [List.getElem?_append_left hlt'] at hj
      have hmade : (bodyPart mc.address x.2).made p.classLayouts = .ok (body, frame.size) :=
        made_stmts.mpr ⟨frame, hbody, rfl⟩
      obtain ⟨y, ps, height, hreach, hps, hown⟩ := Part.exists_origin _ hmade hj
      obtain ⟨code', h', hy, -, -⟩ := hreach.bounds hmade
      obtain ⟨r, args, owner, m, hphrase, hm, hprint, rfl, hend⟩ :=
        hps.pattern.own_call.of_mem hown hcall
      have hsound :=
        hreach.isSound (Program.isIn_setting hp hx.mem.1)
          (Program.isSound_body hp hx.mem.1 mc.address)
      obtain ⟨m', target, htarget, hsignature, haddress⟩ : ∃ m' mc', p.HasCode d (owner, m') mc' ∧
          m'.toSignature = m ∧ d.address ⟨owner, m.name⟩ = some mc'.address := by
        have hphraseSound := hsound.phrase
        rw [hphrase] at hphraseSound
        obtain ⟨-, owner', m', hbinds, -⟩ := hphraseSound
        cases hbinds.meaning_eq.symm.trans hm
        exact Program.exists_target hp hd rfl hbinds.hasMethod hprint
      refine ⟨y, hx, ⟨by omega, by omega⟩, hreach,
        ⟨r, args, owner, m, hphrase, hm, m', target, htarget, hsignature, ?_⟩,
        code', h', hy, by rw [← hps.assembled hy]; exact hend⟩
      cases hs : m.isStatic <;> simp only [hs, if_true, Bool.false_eq_true, if_false, Item.link,
        haddress] at hlinked <;>
        cases hlinked <;> rfl
    · rw [List.getElem?_append_right hge] at hj
      exact absurd hcall (by rw [hclosing _ (List.mem_of_getElem? hj)]; exact Bool.false_ne_true)

theorem Program.returns_close (hd : p.draft entry = .ok d) (hlink : d.link = .ok code)
    {mc : MethodCode} (hmc : mc ∈ d.methods) :
    ∃ results args, 0 < mc.items.length ∧
      code[mc.address + mc.items.length - 1]? =
        some (.of .ret (Word.ofNat results) .zr (Word.ofNat args)) := by
  obtain ⟨x, hx⟩ := Program.exists_hasCode hd hmc
  obtain ⟨init, results, args, hitems⟩ := (isClosed_method (hx.made hd)).returns
  have hlast : mc.items[init.length]? = some (.ret results args) := by rw [hitems]; simp
  have hlength : mc.items.length = init.length + 1 := by rw [hitems]; simp
  obtain ⟨-, hpreamble, hcodes⟩ := Program.draft_eq_ok hd
  have hat := (consecutive_of_methodCodes hcodes).codeAt mc hmc
  obtain ⟨instrs, hinstrs, hrest⟩ := Except.bind_eq_ok.mp hlink
  cases hrest
  obtain ⟨i, hi, hget⟩ := getElem?_of_mapM hinstrs (hat.getElem? hlast)
  cases hi
  refine ⟨results, args, by omega, ?_⟩
  rw [hlength, ← Nat.add_assoc, Nat.add_sub_cancel, List.getElem?_toArray]
  exact hget

theorem Program.goesTo_of_execute (hd : p.draft entry = .ok d) (hlink : d.link = .ok code)
    {a : Nat} {i : Instr} {s s' : State} (hi : code[a]? = some i) (hcp : s.cp = Word.ofNat a)
    (he : execute code.size i s = .ok () s') : GoesTo (Word.ofNat a) i s'.cp :=
  hcp ▸ ((Program.emitted_any hd hlink hi).step he).2

/-- Execution goes on within the method, but for calls and returns. -/
theorem Program.stays_within (hd : p.draft entry = .ok d) (hlink : d.link = .ok code)
    {mc : MethodCode} (hmc : mc ∈ d.methods) {a : Nat} {i : Instr} {s s' : State}
    (ha : mc.Spans a) (hi : code[a]? = some i) (hcall : i.isCall = false)
    (hret : i.op ≠ Op.ret.number) (hcp : s.cp = Word.ofNat a)
    (he : execute code.size i s = .ok () s') : ∃ t, mc.Spans t ∧ s'.cp = Word.ofNat t := by
  rcases Program.goesTo_of_execute hd hlink hi hcp he with ⟨hnext, -⟩ | ⟨hjump, htarget⟩ | hop
  · -- The last instruction of the method is a return, so that there is a next one.
    obtain ⟨results, args, hpos, hlast⟩ := Program.returns_close hd hlink hmc
    refine ⟨a + 1, ⟨Nat.le_succ_of_le ha.1, ?_⟩, by rw [hnext, Word.ofNat_add_one]⟩
    by_contra hge
    have hend : mc.address + mc.items.length - 1 = a := by
      have := ha.2
      omega
    rw [hend, hi] at hlast
    cases hlast
    exact hret rfl
  · rw [hcall, Bool.or_false] at hjump
    obtain ⟨-, mc', hmc', t, ha', ht, heq⟩ := Program.jumps_close hd hlink hi hjump
    cases (Program.consecutive hd).disjoint mc hmc mc' hmc' a ha ha'
    exact ⟨t, ht, by rw [htarget, heq]⟩
  · exact absurd hop hret

theorem Word.ofNat_ne_neg_one {n : Nat} (h : n < 2 ^ 63) : Word.ofNat n ≠ -1 := by
  intro heq
  have hint := congrArg Int64.toInt heq
  rw [Word.toInt_ofNat h] at hint
  have : (-1 : Word).toInt = -1 := by decide
  omega

/-- Control stays within the methods of every program that gets code: jumps go to addresses of their
own method, calls go to the first address of the method that their reference denotes, the entry call
goes to the main method, and the methods follow each other behind the preamble, each with a return
at its end. -/
theorem Program.control_closes {source : Bytes} (h : p.IsBuilt source entry code) :
    ∃ d, p.draft entry = .ok d ∧ d.link = .ok code ∧ p.ControlCloses entry d code := by
  obtain ⟨d, hd, hlink⟩ := h.exists_draft
  obtain ⟨a, haddress, htake⟩ := Program.take_code hd hlink
  have hpreamble (j : Nat) (hj : j < 4) : code[p.staticCount + j]? =
      ([.of .loadl 0 .zr 0, .prim .newarr, .of .call 0 .cb (Word.ofNat a), .of .halt 0 .zr 0] :
        List Instr)[j]? := by
    have hget := congrArg (·[p.staticCount + j]?) htake
    simpa [List.getElem?_take, hj, List.getElem?_append_right] using hget
  have hranges : Consecutive (p.staticCount + 4) code.size d.methods := by
    rw [Draft.size_eq hlink]
    exact Program.consecutive hd
  have hreturns (mc : MethodCode) (hmc : mc ∈ d.methods) := Program.returns_close hd hlink hmc
  obtain ⟨m, hm, hentry⟩ := h.exists_entry
  obtain ⟨mc, hmc, haddress'⟩ := Program.exists_address hd hm
  cases haddress.symm.trans haddress'
  have henter : code[p.staticCount + 2]? = some (.of .call 0 .cb (Word.ofNat mc.address)) :=
    hpreamble 2 (by decide)
  -- Every target is an address of some method, so its word is no negative number.
  have hsmall (hsize : code.size < 2 ^ 63) {mc : MethodCode} {t : Nat} (hmc : mc ∈ d.methods)
      (ht : mc.Spans t) : Word.ofNat t ≠ -1 :=
    Word.ofNat_ne_neg_one (by have := hranges.le_stop.2 mc hmc; have := ht.2; omega)
  have hfirst {mc : MethodCode} (hmc : mc ∈ d.methods) : mc.Spans mc.address := by
    obtain ⟨-, -, hpos, -⟩ := hreturns mc hmc
    exact ⟨Nat.le_refl _, by omega⟩
  refine ⟨d, hd, hlink, hranges, hranges.disjoint, fun a ha ha' => hranges.covers ha ha',
    hpreamble 3 (by decide),
    ⟨m, mc, hmc, ?_, hentry, henter⟩, hreturns,
    fun a i hi hjump => Program.jumps_close hd hlink hi hjump,
    fun a i hi hcall => Program.calls_close h.accepted hd hlink hi hcall,
    fun mc hmc a i s s' ha hi hcall hret hcp he =>
    Program.stays_within hd hlink hmc ha hi hcall hret hcp he,
    fun hsize a i hi htarget => ?_⟩
  · exact (Program.method?_eq_some hm).2
  · rcases Bool.or_eq_true_iff.mp htarget with hjump | hcall
    · obtain ⟨-, mc, hmc, t, -, ht, heq⟩ := Program.jumps_close hd hlink hi hjump
      exact heq ▸ hsmall hsize hmc ht
    · rcases Program.calls_close h.accepted hd hlink hi hcall with rfl | ⟨x, mc, y, -, -, -, hcalls⟩
      · cases henter.symm.trans hi
        exact hsmall hsize hmc.mem.2 (hfirst hmc.mem.2)
      · obtain ⟨r, args, owner, m, -, -, m', target, hcode, -, rfl⟩ := hcalls.phrase
        exact hsmall hsize hcode.mem.2 (hfirst hcode.mem.2)

end Closed

end Draft

/-- A program with a loop and branches whose methods call each other, the later ones before they
have code. -/
def callsEachOther : Bytes :=
  ("class P \x7b public static void main(String[] a) \x7b " ++
    "int i = 0; while (i < 3 && o(i)) i = i + 1; \x7d " ++
      "boolean e(int n) \x7b if (n == 0) return true; return o(n - 1); \x7d " ++
    "static boolean o(int n) \x7b P p = new P(); return p.e(n); \x7d \x7d").toUTF8.toList

theorem callsEachOther_closes : ∃ (p : Program) (entry : MethodKey) (d : Draft) (code : Code),
    p.IsBuilt callsEachOther entry code ∧ p.draft entry = .ok d ∧ p.ControlCloses entry d code ∧
      d.methods.map (fun mc => (mc.address, mc.items.length)) = [(5, 16), (21, 11), (32, 7)] := by
  have hbuild : (Program.build? callsEachOther).map (fun x => (x.1.draft x.2.1).toOption.map
      (·.methods.map fun mc => (mc.address, mc.items.length))) =
        some (some [(5, 16), (21, 11), (32, 7)]) := by
    decide +kernel
  obtain ⟨⟨p, entry, code⟩, hp, hx⟩ := Option.map_eq_some_iff.mp hbuild
  have hbuilt := Program.isBuilt_of_build? hp
  obtain ⟨d, hd, -, hcloses⟩ := Program.control_closes hbuilt
  refine ⟨p, entry, d, code, hbuilt, hd, hcloses, ?_⟩
  simpa [hd, Except.toOption] using hx

end MiniJava
