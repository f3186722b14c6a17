import MiniJava.Proofs.Generate.Heights
/-!
The stack discipline of generated code. Every instruction of a method finds a fixed number of words
above the local base, by whatever path control comes to it, and takes none that belongs to the
frame.
-/
namespace MiniJava

open Generate Machine

/-- Where control can go from an instruction at an address without leaving the method. -/
def Instr.Leads (i : Instr) (a b : Nat) : Prop :=
  i.falls = true ∧ b = a + 1 ∨ i.isJump = true ∧ (b : Int) = i.d.toInt

namespace Program

/-- The method whose code begins at an address. -/
def callee? (p : Program) (d : Draft) (target : Word) : Option Method :=
  ((p.methods.zip d.methods).find? fun x => Word.ofNat x.2.address == target).map (·.1.2)

/-- The words that an instruction takes and leaves. A call takes the arguments and the object on
which the method is called, and leaves the result. -/
def shift? (p : Program) (d : Draft) (i : Instr) : Option Shift :=
  if i.isCall then
    (p.callee? d i.d).map fun m =>
      ⟨m.params.length + (if i.op = Op.calli.number then 1 else 0), m.results⟩
  else i.shift?

/-- The ways in which control comes from the start of a method to an address, with the words that
are then above the local base. -/
inductive Comes (p : Program) (d : Draft) (code : Code) (start : Nat) : Nat → Nat → Prop
  | entry : Comes p d code start start Frame.linkSize
  | step {a b h h' i s} : Comes p d code start a h → code[a]? = some i → p.shift? d i = some s →
      i.Leads a b →
      h' + s.pops = h + s.pushes → Comes p d code start b h'

/-- The heights of a method's code. -/
structure Disciplined (p : Program) (d : Draft) (code : Code) (x : String × Method)
    (mc : MethodCode) (height : Nat → Nat) : Prop where
  entry : height mc.address = Frame.linkSize
  steps : ∀ a i, mc.Spans a → code[a]? = some i → ∃ s, p.shift? d i = some s ∧
    Frame.linkSize + s.pops ≤ height a ∧
    ∀ b, i.Leads a b → mc.Spans b ∧ height b + s.pops = height a + s.pushes
  paths : ∀ a h, p.Comes d code mc.address a h → mc.Spans a ∧ h = height a
  statements : ∀ y, (bodyPart mc.address x.2).Reaches p.classLayouts y → ∀ s, y.phrase = .stmt s →
    ∃ inside after, stmt p.classLayouts y.spot.start y.spot.frame s = .ok (inside, after) ∧
      height y.spot.start = y.spot.frame.size ∧ height (y.spot.start + inside.length) = after.size
  values : ∀ y, (bodyPart mc.address x.2).Reaches p.classLayouts y → ∀ e, y.phrase = .expr e →
    ∃ inside, expr p.classLayouts y.spot.frame y.spot.start e = .ok inside ∧
      height (y.spot.start + inside.length) = height y.spot.start + 1
  calls : ∀ y, (bodyPart mc.address x.2).Reaches p.classLayouts y →
    ∀ r args, y.phrase = .call r args →
    ∃ owner m inside h, r.meaning = some (.method owner m) ∧
      y.made p.classLayouts = .ok (inside, h) ∧
      height (y.spot.start + inside.length) = height y.spot.start + m.results
  floor : ∀ a i, mc.Spans a → code[a]? = some i → i.op ≠ Op.ret.number → ∃ y item s,
    (bodyPart mc.address x.2).Reaches p.classLayouts y ∧ y.Owns p.classLayouts a item ∧
      item.link d.address = .ok i ∧
      p.shift? d i = some s ∧ (y.spot.frame.size + s.pops ≤ height a ∨
        (bodyPart mc.address x.2).InInit p.classLayouts y ∧
        y.spot.frame.size + s.pops ≤ height a + 1)
  returns : ∀ a i, mc.Spans a → code[a]? = some i → i.op = Op.ret.number →
    i = .of .ret (Word.ofNat x.2.results) .zr (Word.ofNat x.2.params.length)
  moves : ∀ a i s s', mc.Spans a → code[a]? = some i → i.isCall = false → i.op ≠ Op.ret.number →
    s.cp = Word.ofNat a → s.st = s.lb + Word.ofNat (height a) → execute code.size i s = .ok () s' →
    ∃ b, i.Leads a b ∧ s'.cp = Word.ofNat b ∧ s'.lb = s.lb ∧ s'.st = s'.lb + Word.ofNat (height b)
  enters : ∀ a i s s', mc.Spans a → code[a]? = some i → i.isCall = true →
    execute code.size i s = .ok () s' →
    s'.st = s'.lb + Word.ofNat Frame.linkSize ∧
      s'.lb + Word.ofNat (if i.op = Op.calli.number then 1 else 0) = s.st
  leaves : ∀ a i s s', mc.Spans a → code[a]? = some i → i.op = Op.ret.number →
    execute code.size i s = .ok () s' →
    s'.st + Word.ofNat x.2.params.length = s.lb + Word.ofNat x.2.results

end Program

section

variable {p : Program} {entry : MethodKey} {d : Draft} {code : Code} {x : String × Method}
  {mc : MethodCode}

theorem Program.HasCode.item_at (hd : p.draft entry = .ok d) (hlink : d.link = .ok code)
    (h : p.HasCode d x mc) {a : Nat} {i : Instr} (ha : mc.Spans a) (hi : code[a]? = some i) :
    ∃ j item, a = mc.address + j ∧ mc.items[j]? = some item ∧ item.link d.address = .ok i := by
  obtain ⟨item, hitem, hlinked⟩ := Draft.exists_item hlink hi
  obtain ⟨j, rfl⟩ := Nat.exists_eq_add_of_le ha.1
  have hj : j < mc.items.length := by
    have := ha.2
    omega
  obtain ⟨-, -, hcodes⟩ := Program.draft_eq_ok hd
  have hat :=
    ((consecutive_of_methodCodes hcodes).codeAt mc h.mem.2).getElem? (List.getElem?_eq_getElem hj)
  cases hitem.symm.trans hat
  exact ⟨j, _, rfl, List.getElem?_eq_getElem hj, hlinked⟩

theorem Program.HasCode.address_lt (hd : p.draft entry = .ok d) (hlink : d.link = .ok code)
    (h : p.HasCode d x mc) : mc.address + mc.items.length ≤ code.size := by
  rw [Draft.size_eq hlink]
  exact (Program.consecutive hd).le_stop.2 mc h.mem.2

theorem Program.HasCode.address_unique (hd : p.draft entry = .ok d) (hlink : d.link = .ok code)
    {x' : String × Method} {mc' : MethodCode} (h : p.HasCode d x mc) (h' : p.HasCode d x' mc')
    (heq : mc.address = mc'.address) : mc = mc' := by
  obtain ⟨-, -, hpos, -⟩ := Program.returns_close hd hlink h.mem.2
  obtain ⟨-, -, hpos', -⟩ := Program.returns_close hd hlink h'.mem.2
  exact (Program.consecutive hd).disjoint mc h.mem.2 mc' h'.mem.2 mc.address ⟨by omega, by
    omega⟩ ⟨by omega, by omega⟩

theorem Program.HasCode.callee (hp : p.Accepted) (hd : p.draft entry = .ok d)
    (hlink : d.link = .ok code) (hsize : code.size < 2 ^ 63) (h : p.HasCode d x mc) :
    ∃ m, p.callee? d (Word.ofNat mc.address) = some m ∧ m.toSignature = x.2.toSignature := by
  have hsome :
      ((p.methods.zip d.methods).find? fun x => Word.ofNat x.2.address ==
      Word.ofNat mc.address).isSome := by
    rw [List.find?_isSome]
    exact ⟨(x, mc), h, beq_self_eq_true _⟩
  obtain ⟨⟨x', mc'⟩, hfound⟩ := Option.isSome_iff_exists.mp hsome
  have h' : p.HasCode d x' mc' := List.mem_of_find?_eq_some hfound
  refine ⟨x'.2, by rw [Program.callee?, hfound]; rfl, ?_⟩
  have hmc : mc' = mc := by
    have hfound : Word.ofNat mc'.address = Word.ofNat mc.address := by
      simpa using List.find?_some hfound
    have hword := congrArg Int64.toInt hfound
    have hle := h.address_lt hd hlink
    have hle' := h'.address_lt hd hlink
    rw [Word.toInt_ofNat (by omega), Word.toInt_ofNat (by omega)] at hword
    exact h'.address_unique hd hlink h (Int.ofNat.inj hword)
  subst hmc
  have hkey := (methodCode_key (h'.made hd)).symm.trans (methodCode_key (h.made hd))
  obtain ⟨howner, hname⟩ := MethodKey.mk.inj hkey
  have hdeclared := (Program.isIn_setting hp h.mem.1).declared
  have hdeclared' : (p.setting x.1 x.2).HasMethod x.1 x'.2.toSignature :=
    howner ▸ (Program.isIn_setting hp h'.mem.1).declared
  exact hp.bound.method_unique (E := p.setting x.1 x.2) rfl hdeclared' hdeclared hname

theorem Instr.shift?_of_isCall {i : Instr} (h : i.isCall = true) : i.shift? = none := by
  simp only [Instr.isCall, Bool.or_eq_true, Bool.and_eq_true, beq_iff_eq] at h
  unfold Instr.shift?
  rcases h with hop | ⟨hop, hr⟩
  · rw [hop]
    rfl
  · rw [hop, hr]
    rfl

theorem Item.link_shift (hp : p.Accepted) (hd : p.draft entry = .ok d) (hlink : d.link = .ok code)
    (hsize : code.size < 2 ^ 63) {item : Item} {i : Instr} {s : Shift}
    (hi : item.link d.address = .ok i) (hs : item.shift? p = some s) : p.shift? d i = some s := by
  cases item with
  | instr i' =>
    cases hi
    rw [Program.shift?, if_neg]
    · exact hs
    · intro hcall
      cases (Instr.shift?_of_isCall hcall).symm.trans hs
  | call key | callOn key =>
    obtain ⟨m, hm, rfl⟩ := Option.map_eq_some_iff.mp hs
    obtain ⟨mc, hmc, haddress⟩ := Program.exists_address hd hm
    simp only [Item.link, haddress, Except.ok.injEq] at hi
    subst hi
    obtain ⟨m', hcallee, hsignature⟩ := hmc.callee hp hd hlink hsize
    rw [Program.shift?, if_pos (show Instr.isCall _ = true from rfl)]
    change (p.callee? d (Word.ofNat mc.address)).map _ = _
    rw [hcallee, Option.map_some, hsignature]
    rfl
  | create kind => cases kind <;> cases hi <;> cases hs <;> rfl

theorem Program.HasCode.exists_heights (hp : p.Accepted) (hd : p.draft entry = .ok d)
    (h : p.HasCode d x mc) (hsize : mc.items.length < 2 ^ 63) :
    ∃ H, MarksAll p.classLayouts H (bodyPart mc.address x.2) := by
  obtain ⟨body, frame, hbody, hmc⟩ := methodCode_eq_ok (h.made hd)
  have hlength : mc.items.length = body.length + (closing x.2).length := by
    rw [hmc, List.length_append]
  exact exists_marks (Program.isIn_setting hp h.mem.1) _
    (Program.isSound_body hp h.mem.1 mc.address)
    (made_stmts.mpr ⟨frame, hbody, rfl⟩) (by omega)

/-- What a method returns with at its end, if it does not end with a return statement. -/
theorem closing_eq {m : Method} (hm : m.WellTyped) :
    closing m = [] ∨ m.results = 0 ∧ closing m = [.ret 0 m.params.length] := by
  unfold closing
  split
  · exact .inl rfl
  · rename_i hlast
    refine .inr ⟨if_pos ?_, rfl⟩
    by_contra hvoid
    obtain ⟨value, s, hvalue⟩ := hm.returns hvoid
    exact hlast value s hvalue

theorem Program.HasCode.item_cases (hp : p.Accepted) (hd : p.draft entry = .ok d)
    (h : p.HasCode d x mc) {j : Nat} {item : Item} (hitem : mc.items[j]? = some item) :
    (∃ y, (bodyPart mc.address x.2).Reaches p.classLayouts y ∧
      y.Owns p.classLayouts (mc.address + j) item) ∨
      ∃ body size, (bodyPart mc.address x.2).made p.classLayouts = .ok (body, size) ∧
      j = body.length ∧
        Frame.linkSize ≤ size ∧ x.2.results = 0 ∧ item = .ret 0 x.2.params.length := by
  obtain ⟨body, frame, hbody, hmc⟩ := methodCode_eq_ok (h.made hd)
  have hitems : mc.items = body ++ closing x.2 := by rw [hmc]
  have hmade : (bodyPart mc.address x.2).made p.classLayouts = .ok (body, frame.size) :=
    made_stmts.mpr ⟨frame, hbody, rfl⟩
  rw [hitems] at hitem
  rcases Nat.lt_or_ge j body.length with hlt | hge
  · rw [List.getElem?_append_left hlt] at hitem
    obtain ⟨y, ps, height, hreach, hps, hown⟩ := Part.exists_origin _ hmade hitem
    exact .inl ⟨y, hreach, ps, height, hps, hown⟩
  · rw [List.getElem?_append_right hge] at hitem
    have htyped : x.2.WellTyped := by
      obtain ⟨c, hc, -, hm, -⟩ := @Program.hasMethod_of_mem p (p.setting x.1 x.2) rfl x h.mem.1
      exact hp.methods c hc x.2 hm
    rcases closing_eq htyped with hclosing | ⟨hresults, hclosing⟩
    · rw [hclosing] at hitem
      cases hitem
    · rw [hclosing, List.getElem?_singleton] at hitem
      split at hitem
      · cases hitem
        exact .inr ⟨body, frame.size, hmade, by omega, stmts_size htyped.body (fits_entry _) hbody,
          hresults, rfl⟩
      · cases hitem

theorem Item.link_falls {item : Item} {address : MethodKey → Option Nat} {i : Instr}
    (h : item.link address = .ok i) : i.falls = item.falls := by
  cases item with
  | instr i' => cases h; rfl
  | call key | callOn key =>
    simp only [Item.link] at h
    split at h
    · cases h; rfl
    · cases h
  | create kind => cases kind <;> cases h <;> rfl

/-- Control does not leave the method behind an instruction or by a jump. -/
theorem Program.HasCode.spans_of_leads (hd : p.draft entry = .ok d) (hlink : d.link = .ok code)
    (hsize : code.size < 2 ^ 63) (h : p.HasCode d x mc) {a b : Nat} {i : Instr} (ha : mc.Spans a)
    (hi : code[a]? = some i) (hb : i.Leads a b) : mc.Spans b := by
  rcases hb with ⟨hfalls, rfl⟩ | ⟨hjump, hb⟩
  · obtain ⟨results, args, hpos, hlast⟩ := Program.returns_close hd hlink h.mem.2
    refine ⟨Nat.le_succ_of_le ha.1, ?_⟩
    by_contra hge
    have hend : mc.address + mc.items.length - 1 = a := by
      have := ha.2
      omega
    rw [hend, hi] at hlast
    cases hlast
    cases hfalls
  · obtain ⟨-, mc', hmc', t, ha', ht, heq⟩ := Program.jumps_close hd hlink hi hjump
    cases (Program.consecutive hd).disjoint mc h.mem.2 mc' hmc' a ha ha'
    have hle := h.address_lt hd hlink
    have hlt := ht.2
    rw [heq, Word.toInt_ofNat (by omega)] at hb
    cases Int.ofNat.inj hb
    exact ht

section Heights

variable {H : Nat → Nat} (hp : p.Accepted) (hd : p.draft entry = .ok d) (hlink : d.link = .ok code)
  (hsize : code.size < 2 ^ 63) (h : p.HasCode d x mc)
  (hH : MarksAll p.classLayouts H (bodyPart mc.address x.2))

include hp hd hlink hsize h hH

/-- What an instruction of a part's own does to the height. -/
theorem Program.HasCode.levels {y : Part} {a : Nat} {item : Item}
    (hy : (bodyPart mc.address x.2).Reaches p.classLayouts y)
    (hown : y.Owns p.classLayouts a item) :
    ∃ stop s, stop ≤ code.size ∧ item.Levels p H y.spot.height stop a s := by
  have hle := h.address_lt hd hlink
  obtain ⟨body, frame, hbody, hmc⟩ := methodCode_eq_ok (h.made hd)
  have hlength : body.length ≤ mc.items.length := by rw [hmc]; simp
  obtain ⟨s, hs⟩ :=
    hH.levels (Program.isIn_setting hp h.mem.1) (Program.isSound_body hp h.mem.1 mc.address)
    (made_stmts.mpr ⟨frame, hbody, rfl⟩) (by omega) hy hown
  exact ⟨mc.address + body.length, s, by omega, hs⟩

theorem Program.HasCode.step {a : Nat} {i : Instr} (ha : mc.Spans a) (hi : code[a]? = some i) :
    ∃ s, p.shift? d i = some s ∧ Frame.linkSize + s.pops ≤ H a ∧
      ∀ b, i.Leads a b → H b + s.pops = H a + s.pushes := by
  obtain ⟨j, item, rfl, hitem, hlinked⟩ := h.item_at hd hlink ha hi
  rcases h.item_cases hp hd hitem with ⟨y, hy, hown⟩ | ⟨body, size, hmade, rfl, hsize', -, rfl⟩
  · obtain ⟨stop, s, hstop, hs⟩ := h.levels hp hd hlink hsize hH hy hown
    have hsound :=
      hy.isSound (Program.isIn_setting hp h.mem.1) (Program.isSound_body hp h.mem.1 mc.address)
    have hlink' : Frame.linkSize ≤ y.spot.height :=
      Nat.le_trans (Nat.le_add_right _ _) hsound.houses.height
    have hfloor := hs.floor
    refine ⟨s, Item.link_shift hp hd hlink hsize hlinked hs.shift, by omega, fun b hb => ?_⟩
    rcases hb with ⟨hfalls, rfl⟩ | ⟨hjump, hb⟩
    · exact hs.next ((Item.link_falls hlinked).symm.trans hfalls)
    · cases Item.link_isJump hlinked hjump
      obtain ⟨t, ht, htle, heq⟩ := hs.jump hjump
      have htarget : i.d = Word.ofNat t := by
        rcases ht with hi | ⟨v, hi⟩ <;> cases hi <;> rfl
      rw [htarget, Word.toInt_ofNat (by omega)] at hb
      cases Int.ofNat.inj hb
      exact heq
  · cases hlinked
    have hexit : H (mc.address + body.length) = size := (hH _ .self).exit body size hmade
    refine ⟨⟨0, 0⟩, rfl, hexit ▸ hsize', fun b hb => ?_⟩
    rcases hb with ⟨hfalls, -⟩ | ⟨hjump, -⟩
    · cases hfalls
    · cases hjump

theorem Program.HasCode.path {a height : Nat} (hpath : p.Comes d code mc.address a height) :
    mc.Spans a ∧ height = H a := by
  induction hpath with
  | entry =>
    obtain ⟨-, -, hpos, -⟩ := Program.returns_close hd hlink h.mem.2
    exact ⟨⟨Nat.le_refl _, by omega⟩, (hH _ .self).entry.symm⟩
  | step _ hi hs hb heq ih =>
    obtain ⟨ha, rfl⟩ := ih
    obtain ⟨s, hs', -, hnext⟩ := h.step hp hd hlink hsize hH ha hi
    cases hs.symm.trans hs'
    have := hnext _ hb
    exact ⟨h.spans_of_leads hd hlink hsize ha hi hb, by omega⟩

theorem Program.HasCode.floor {a : Nat} {i : Instr} (ha : mc.Spans a) (hi : code[a]? = some i)
    (hret : i.op ≠ Op.ret.number) :
    ∃ y item s, (bodyPart mc.address x.2).Reaches p.classLayouts y ∧ y.Owns p.classLayouts a item ∧
      item.link d.address = .ok i ∧ p.shift? d i = some s ∧
      (y.spot.frame.size + s.pops ≤ H a ∨ (bodyPart mc.address x.2).InInit p.classLayouts y ∧
      y.spot.frame.size + s.pops ≤ H a + 1) := by
  obtain ⟨j, item, rfl, hitem, hlinked⟩ := h.item_at hd hlink ha hi
  rcases h.item_cases hp hd hitem with ⟨y, hy, hown⟩ | ⟨-, -, -, -, -, -, rfl⟩
  · obtain ⟨stop, s, -, hs⟩ := h.levels hp hd hlink hsize hH hy hown
    have hfloor := hs.floor
    refine ⟨y, item, s, hy, hown, hlinked, Item.link_shift hp hd hlink hsize hlinked hs.shift, ?_⟩
    have hbody := Program.isSound_body hp h.mem.1 mc.address
    rcases hy.frame (Program.isIn_setting hp h.mem.1) hbody (Nat.le_refl _) with hframe | hinit
    · exact .inl (by omega)
    · obtain ⟨z, v, init, sp, -, -, -, hsize, hheight⟩ := hinit.declared
      exact .inr ⟨hinit, by omega⟩
  · cases hlinked
    exact absurd rfl hret

omit hsize hH in
theorem Program.HasCode.returns {a : Nat} {i : Instr} (ha : mc.Spans a) (hi : code[a]? = some i)
    (hret : i.op = Op.ret.number) :
    i = .of .ret (Word.ofNat x.2.results) .zr (Word.ofNat x.2.params.length) := by
  obtain ⟨j, item, rfl, hitem, hlinked⟩ := h.item_at hd hlink ha hi
  rcases h.item_cases hp hd hitem with ⟨y, hy, ps, height, hps, hown⟩ |
    ⟨-, -, -, -, -, hresults, rfl⟩
  · have hE := Program.isIn_setting hp h.mem.1
    have hsound := hy.isSound hE (Program.isSound_body hp h.mem.1 mc.address)
    have hfalls : item.falls = false := by
      rw [← Item.link_falls hlinked, Instr.falls, hret]
      rfl
    rcases (hps.pattern.own_returns hsound.houses hsound.phrase).of_mem hown hfalls with hjump | rfl
    · have hjump : i.isJump = true := by
        cases item with
        | instr i' => cases hlinked; exact hjump
        | call | callOn | create => cases hjump
      rw [Instr.isJump, hret] at hjump
      cases hjump
    · cases hlinked
      rfl
  · cases hlinked
    rw [hresults]

omit hsize hH in
theorem Program.HasCode.leaves {a : Nat} {i : Instr} {s s' : State} (ha : mc.Spans a)
    (hi : code[a]? = some i) (hret : i.op = Op.ret.number)
    (he : execute code.size i s = .ok () s') :
    s'.st + Word.ofNat x.2.params.length = s.lb + Word.ofNat x.2.results := by
  rw [h.returns hp hd hlink ha hi hret] at he
  obtain ⟨t, u, hu, rfl⟩ := execute_eq_ok he
  have hleave : leaveFrame (Word.ofNat x.2.results) (Word.ofNat x.2.params.length) s = .ok t u := hu
  have hresults : x.2.results < 2 ^ 63 := by
    unfold Signature.results
    split <;> decide
  have := leaveFrame_eq_ok hleave
  rwa [Word.toInt_ofNat hresults, Int.toNat_natCast] at this

omit hlink hsize in
theorem Program.HasCode.disciplines {y : Part}
    (hy : (bodyPart mc.address x.2).Reaches p.classLayouts y) :
    y.IsSound (p.setting x.1 x.2) ∧ Marks p.classLayouts H y ∧ ∃ inside height,
      y.made p.classLayouts = .ok (inside, height) := by
  obtain ⟨body, frame, hbody, -⟩ := methodCode_eq_ok (h.made hd)
  obtain ⟨inside, height, hmade, -⟩ := hy.bounds (made_stmts.mpr ⟨frame, hbody, rfl⟩)
  exact ⟨hy.isSound (Program.isIn_setting hp h.mem.1) (Program.isSound_body hp h.mem.1 mc.address),
    hH y hy, inside, height, hmade⟩

theorem Program.HasCode.moves {a : Nat} {i : Instr} {s s' : State} (ha : mc.Spans a)
    (hi : code[a]? = some i) (hcall : i.isCall = false) (hret : i.op ≠ Op.ret.number)
    (hcp : s.cp = Word.ofNat a) (hst : s.st = s.lb + Word.ofNat (H a))
    (he : execute code.size i s = .ok () s') :
    ∃ b, i.Leads a b ∧ s'.cp = Word.ofNat b ∧ s'.lb = s.lb ∧ s'.st = s'.lb + Word.ofNat (H b) := by
  have hemitted := Program.emitted_any hd hlink hi
  have hgoes := Program.goesTo_of_execute hd hlink hi hcp he
  obtain ⟨shift, hshift, -, hnext⟩ := h.step hp hd hlink hsize hH ha hi
  rw [Program.shift?, hcall, if_neg Bool.false_ne_true] at hshift
  have hhalt : i.op ≠ Op.halt.number := by
    intro hop
    rw [Instr.shift?, hop] at hshift
    cases hshift
  obtain ⟨b, hb, hcp'⟩ : ∃ b, i.Leads a b ∧ s'.cp = Word.ofNat b := by
    rcases hgoes with ⟨hcp', hjump⟩ | ⟨hjump, htarget⟩ | hop
    · exact ⟨a + 1, .inl ⟨by simp [Instr.falls, hjump, hret, hhalt], rfl⟩, by
        rw [hcp', Word.ofNat_add_one]⟩
    · rw [hcall, Bool.or_false] at hjump
      obtain ⟨-, mc', hmc', t, ha', ht, heq⟩ := Program.jumps_close hd hlink hi hjump
      cases (Program.consecutive hd).disjoint mc h.mem.2 mc' hmc' a ha ha'
      have hlt := ht.2
      have hle := h.address_lt hd hlink
      exact ⟨t, .inr ⟨hjump, by rw [heq, Word.toInt_ofNat (by omega)]⟩, htarget.trans heq⟩
    · exact absurd hop hret
  obtain ⟨hst', hlb⟩ := moves_execute hemitted hshift hret code.size s () s' he
  refine ⟨b, hb, hcp', hlb, ?_⟩
  have hwords := congrArg Word.ofNat (hnext b hb)
  rw [Word.ofNat_add, Word.ofNat_add] at hwords
  grind

end Heights

theorem Program.HasCode.exists_disciplined (hp : p.Accepted) (hd : p.draft entry = .ok d)
    (hlink : d.link = .ok code) (hsize : code.size < 2 ^ 63) (h : p.HasCode d x mc) :
    ∃ height, p.Disciplined d code x mc height := by
  have hle := h.address_lt hd hlink
  obtain ⟨H, hH⟩ := h.exists_heights hp hd (by omega)
  refine ⟨H, (hH _ .self).entry, ?_, ?_, ?_, ?_, ?_, ?_, ?_, ?_, ?_, ?_⟩
  · intro a i ha hi
    obtain ⟨s, hs, hfloor, hnext⟩ := h.step hp hd hlink hsize hH ha hi
    exact ⟨s, hs, hfloor, fun b hb => ⟨h.spans_of_leads hd hlink hsize ha hi hb, hnext b hb⟩⟩
  · intro a height hpath
    exact h.path hp hd hlink hsize hH hpath
  · rintro ⟨P, X⟩ hy s rfl
    obtain ⟨hsound, hmarks, inside, height, hmade⟩ := h.disciplines hp hd hH hy
    obtain ⟨after, hafter, rfl⟩ := made_stmt.mp hmade
    exact ⟨inside, after, hafter, hmarks.entry.trans hsound.phrase.1.height,
      hmarks.exit inside _ hmade⟩
  · rintro ⟨P, X⟩ hy e rfl
    obtain ⟨-, hmarks, inside, height, hmade⟩ := h.disciplines hp hd hH hy
    obtain ⟨hinside, rfl⟩ := made_expr.mp hmade
    exact ⟨inside, hinside, by rw [hmarks.exit inside _ hmade, hmarks.entry]⟩
  · rintro ⟨P, X⟩ hy r args rfl
    obtain ⟨-, hmarks, inside, height, hmade⟩ := h.disciplines hp hd hH hy
    obtain ⟨owner, m, -, -, hm, -, -, -, rfl⟩ := made_call.mp hmade
    exact ⟨owner, m, inside, _, hm, hmade, by rw [hmarks.exit inside _ hmade, hmarks.entry]⟩
  · intro a i ha hi hret
    exact h.floor hp hd hlink hsize hH ha hi hret
  · intro a i ha hi hret
    exact h.returns hp hd hlink ha hi hret
  · intro a i s s' ha hi hcall hret hcp hst he
    exact h.moves hp hd hlink hsize hH ha hi hcall hret hcp hst he
  · intro a i s s' ha hi hcall he
    exact execute_call (Program.emitted_any hd hlink hi) hcall he
  · intro a i s s' ha hi hret he
    exact h.leaves hp hd hlink ha hi hret he

/-- Every program whose code can be addressed by words keeps the stack discipline in all its
methods. -/
theorem Program.stack_disciplined {source : Bytes} (h : p.IsBuilt source entry code)
    (hsize : code.size < 2 ^ 63) :
    ∃ d, p.draft entry = .ok d ∧ d.link = .ok code ∧
      List.Forall₂ (fun x mc => ∃ height, p.Disciplined d code x mc height)
        p.methods d.methods := by
  obtain ⟨d, hd, hlink⟩ := h.exists_draft
  refine ⟨d, hd, hlink, ?_⟩
  obtain ⟨hlength, -⟩ := List.forall₂_iff_zip.mp (methodCodes_eq_ok (Program.draft_eq_ok hd).2.2)
  exact List.forall₂_iff_zip.mpr ⟨hlength,
    fun hmem => Program.HasCode.exists_disciplined h.accepted hd hlink hsize hmem⟩

end

/-- A program with nested blocks, branches, a loop, a decided operand and a call whose result is
dropped. -/
def nestsBlocks : Bytes :=
  ("class N \x7b public static void main(String[] a) \x7b " ++
    "int i = 0; while (i < 4) \x7b int s = i; " ++
      "if (s > 1 && i < 3) \x7b int u = s + f(s); i = u; \x7d else i = i + 1; f(i); \x7d \x7d " ++
    "static int f(int n) \x7b return n; \x7d \x7d").toUTF8.toList

theorem nestsBlocks_disciplined :
    ∃ (p : Program) (entry : MethodKey) (d : Draft) (code : Code),
      p.IsBuilt nestsBlocks entry code ∧ code.size < 2 ^ 63 ∧ p.draft entry = .ok d ∧
      d.link = .ok code ∧
      List.Forall₂ (fun x mc => ∃ height, p.Disciplined d code x mc height) p.methods d.methods ∧
      d.methods.map (·.frame.maxSize) = [6, 3] := by
  have hbuild :
      (Program.build? nestsBlocks).map (fun x => (x.2.2.size, (x.1.draft x.2.1).toOption.map
      (·.methods.map (·.frame.maxSize)))) = some (41, some [6, 3]) := by
    decide +kernel
  obtain ⟨⟨p, entry, code⟩, hp, hx⟩ := Option.map_eq_some_iff.mp hbuild
  obtain ⟨hsize, hframes⟩ := Prod.mk.inj hx
  have hbuilt := Program.isBuilt_of_build? hp
  have hsmall : code.size < 2 ^ 63 := by
    rw [show code.size = 41 from hsize]
    decide
  obtain ⟨d, hd, hlink, hdisciplined⟩ := Program.stack_disciplined hbuilt hsmall
  refine ⟨p, entry, d, code, hbuilt, hsmall, hd, hlink, hdisciplined, ?_⟩
  simpa [hd, Except.toOption] using hframes

end MiniJava
