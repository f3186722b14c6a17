import MiniJava.Proofs.Machine.Effect
/-!
What the machine keeps. A property of states that survives the elementary changes of a state
survives every instruction that generated code has, also one that stops the machine.
-/
namespace MiniJava

/-- A jump, on a condition or not. -/
def Instr.isJump (i : Instr) : Bool := i.op == Op.jump.number || i.op == Op.jumpif.number

/-- A call of code, on an object or not. -/
def Instr.isCall (i : Instr) : Bool :=
  i.op == Op.calli.number || (i.op == Op.call.number && i.r == Reg.cb.number)

end MiniJava

namespace MiniJava.Machine

/-- Pushes the result of an operation, or stops with its fault. -/
def pushResult : Except Fault Word → Action Unit
  | .ok v => push v
  | .error f => fault f

theorem binaryTop_eq (p : Prim) : binaryTop p = (do
    let x ← pop2
    pushResult (binary p x.1 x.2)) := rfl

/-- What holds of the state after an action, also when it has stopped the machine, and of its
result. -/
def Ends {α : Type} (I : State → Prop) (Q : α → Prop) : EStateM.Result Stop State α → Prop
  | .ok a s => I s ∧ Q a
  | .error _ s => I s

/-- An action keeps `I` and gives results of which `Q` holds. -/
def Keeps {α : Type} (I : State → Prop) (x : Action α)
    (Q : α → Prop) : Prop := ∀ s, I s → Ends I Q (x s)

/-- A property of states that survives their elementary changes, as long as words with the property
`V` are stored. -/
structure Stable (V : Word → Prop) (I : State → Prop) : Prop where
  fetched : ∀ {s : State} {i : Nat} {w : Word}, I s → s.data[i]? = some w → V w
  stored : ∀ {s : State} {i : Nat} {w : Word} (h : i < s.data.size), I s → V w →
    I { s with data := s.data.set i w h }
  stack : ∀ {s : State} (a : Word), I s → I { s with st := a }
  heap : ∀ {s : State} (a : Word), I s → I { s with ht := a }
  bases : ∀ {s : State} {lb ob : Word}, I s → V lb → V ob → I { s with lb, ob }
  object : ∀ {s : State}, I s → V s.ob
  frame : ∀ {s : State}, I s → V s.lb
  next : ∀ {s : State}, I s → V (s.cp + 1)
  printed : ∀ {s : State} {w : Word}, I s → V w →
    I { s with output := s.output.append (decimal w ++ newline) }
  address : ∀ {s : State} {i : Nat}, I s → i ≤ s.data.size + 1 → V (Word.ofNat i)
  cut : ∀ w : Word, V w.cut32
  truth : ∀ b : Bool, V (Word.ofBool b)
  array : V arrayClass

section Actions

variable {α β : Type} {V : Word → Prop} {I : State → Prop}

theorem Ends.bind {x : Action α} {f : α → Action β} {Q : α → Prop} {R : β → Prop} {s : State}
    (hx : Ends I Q (x s)) (hf : ∀ a, Q a → Keeps I (f a) R) : Ends I R ((x >>= f) s) := by
  cases h : x s with
  | ok a u =>
    rw [h] at hx
    rw [EStateM.bind_of_ok h]
    exact hf a hx.2 u hx.1
  | error e u =>
    rw [h] at hx
    rw [EStateM.bind_of_error h]
    exact hx

theorem Ends.of_state {J : State → Prop} {Q : α → Prop} {r : EStateM.Result Stop State α}
    (hr : Ends I Q r) (hIJ : ∀ s, I s → J s) : Ends J Q r := by
  cases r with
  | ok a s => exact ⟨hIJ s hr.1, hr.2⟩
  | error e s => exact hIJ s hr

theorem Ends.imp {Q R : α → Prop} {r : EStateM.Result Stop State α} (hr : Ends I Q r)
    (hQR : ∀ a, Q a → R a) : Ends I R r := by
  cases r with
  | ok a s => exact ⟨hr.1, hQR a hr.2⟩
  | error e s => exact hr

theorem Keeps.imp {x : Action α} {Q R : α → Prop} (hx : Keeps I x Q)
    (hQR : ∀ a, Q a → R a) : Keeps I x R :=
  fun s hs => (hx s hs).imp hQR

theorem Keeps.bind {x : Action α} {f : α → Action β} {Q : α → Prop} {R : β → Prop}
    (hx : Keeps I x Q) (hf : ∀ a, Q a → Keeps I (f a) R) : Keeps I (x >>= f) R :=
  fun s hs => (hx s hs).bind hf

theorem keeps_pure {a : α} {Q : α → Prop} (h : Q a) : Keeps I (pure a) Q := fun _ hs => ⟨hs, h⟩

theorem keeps_fault {f : Fault} {Q : α → Prop} : Keeps I (fault f) Q := fun _ hs => hs

theorem keeps_look {f : State → Word} {Q : Word → Prop}
    (h : ∀ s, I s → Q (f s)) : Keeps I (look f) Q :=
  fun s hs => ⟨hs, h s hs⟩

theorem keeps_any {f : State → Word} : Keeps I (look f) (fun _ => True) := fun _ hs => ⟨hs, trivial⟩

theorem keeps_ite {c : Prop} [Decidable c] {x y : Action α} {Q : α → Prop} (hx : Keeps I x Q)
    (hy : Keeps I y Q) : Keeps I (if c then x else y) Q := by
  split
  · exact hx
  · exact hy

theorem keeps_check {c : Prop} [Decidable c] {f : Fault} {k : Unit → Action α} {Q : α → Prop}
    (hk : Keeps I (k ()) Q) : Keeps I (if c then fault f >>= k else k ()) Q := by
  intro s hs
  by_cases hc : c
  · rw [if_pos hc]
    exact hs
  · rw [if_neg hc]
    exact hk s hs

namespace Stable

variable (h : Stable V I)

include h

theorem zero : V 0 := h.truth false

theorem push_at {w : Word} (hw : V w) {s : State}
    (hs : I s) : Ends I (fun _ => V s.st) (push w s) := by
  unfold Machine.push
  split
  · exact hs
  · split
    · rename_i i hi
      refine ⟨h.stack _ (h.stored i.isLt hs hw), ?_⟩
      rw [Word.eq_of_index? hi]
      exact h.address hs (by omega)
    · exact hs

theorem push {w : Word} (hw : V w) : Keeps I (push w) (fun _ => True) :=
  fun _ hs => (h.push_at hw hs).imp fun _ _ => trivial

theorem pop_at {s : State} (hs : I s) :
    Ends I (fun w => V w ∧ ∃ i : Nat, s.st = Word.ofNat (i + 1) ∧ s.data[i]? = some w) (pop s) := by
  unfold Machine.pop
  split
  · exact hs
  · simp only
    split
    · rename_i i hi
      have htop : s.st = Word.ofNat (i + 1) := by
        rw [← Word.ofNat_add_one, ← Word.eq_of_index? hi, Int64.sub_add_cancel]
      have hw := Array.getElem?_eq_getElem i.isLt
      exact ⟨h.stack _ hs, h.fetched hs hw, i, htop, hw⟩
    · exact h.stack _ hs

theorem pop : Keeps I pop V := fun _ hs => (h.pop_at hs).imp fun _ hw => hw.1

theorem fetch (a : Word) : Keeps I (fetch a) V := by
  intro s hs
  unfold Machine.fetch
  split
  · rename_i i hi
    exact ⟨hs, h.fetched hs (Array.getElem?_eq_getElem i.isLt)⟩
  · exact hs

/-- What can be written to is an address, and so is the word two further on. -/
theorem put (a : Word) {w : Word} (hw : V w) : Keeps I (put a w) (fun _ => V (a + 2)) := by
  intro s hs
  unfold Machine.put
  split
  · rename_i i hi
    refine ⟨h.stored i.isLt hs hw, ?_⟩
    rw [Word.eq_of_index? hi, Word.ofNat_add_two]
    exact h.address hs (by omega)
  · exact hs

theorem setSt (a : Word) : Keeps I (setSt a) (fun _ => True) := fun _ hs => ⟨h.stack a hs, trivial⟩

theorem setHt (a : Word) : Keeps I (setHt a) (fun _ => True) := fun _ hs => ⟨h.heap a hs, trivial⟩

theorem popOnto {n : Nat} {above : List Word} (habove : ∀ w ∈ above, V w) :
    Keeps I (popOnto n above) (fun ws => ∀ w ∈ ws, V w) := by
  induction n generalizing above with
  | zero => exact keeps_pure habove
  | succ n ih => exact h.pop.bind fun w hw => ih (List.forall_mem_cons.mpr ⟨hw, habove⟩)

theorem popMany (n : Word) : Keeps I (popMany n) (fun ws => ∀ w ∈ ws, V w) :=
  keeps_ite (fun _ hs => hs) (h.popOnto nofun)

theorem pop2 : Keeps I pop2 (fun x => V x.1 ∧ V x.2) :=
  h.pop.bind fun _ hb => h.pop.bind fun _ ha => keeps_pure ⟨ha, hb⟩

theorem pop3 : Keeps I pop3 (fun x => V x.1 ∧ V x.2.1 ∧ V x.2.2) :=
  h.pop.bind fun _ hc => h.pop.bind fun _ hb => h.pop.bind fun _ ha => keeps_pure ⟨ha, hb, hc⟩

theorem pushAll {ws : List Word} (hws : ∀ w ∈ ws, V w) : Keeps I (pushAll ws) (fun _ => True) := by
  induction ws with
  | nil => exact keeps_pure trivial
  | cons w ws ih =>
    obtain ⟨hw, hws⟩ := List.forall_mem_cons.mp hws
    exact (h.push hw).bind fun _ _ => ih hws

theorem pushZeros (n : Nat) : Keeps I (pushZeros n) (fun _ => True) := by
  induction n with
  | zero => exact keeps_pure trivial
  | succ n ih => exact (h.push h.zero).bind fun _ _ => ih

omit h in
theorem checkAddress (a : Word) : Keeps I (checkAddress a) (fun _ => True) := by
  intro s hs
  unfold Machine.checkAddress
  split
  · exact hs
  · split
    · exact hs
    · exact ⟨hs, trivial⟩

theorem load (a : Word) : Keeps I (load a) V := (checkAddress a).bind fun _ _ => h.fetch a

theorem store (a : Word) {w : Word} (hw : V w) : Keeps I (store a w) (fun _ => V (a + 2)) :=
  (checkAddress a).bind fun _ _ => h.put a hw

theorem clear (n : Nat) (a : Word) : Keeps I (clear n a) (fun _ => True) := by
  induction n generalizing a with
  | zero => exact keeps_pure trivial
  | succ n ih => exact (h.put a h.zero).bind fun _ _ => ih (a + 1)

theorem allocate {cls size : Word} (hcls : V cls)
    (hsize : V size) : Keeps I (allocate cls size) V := by
  unfold Machine.allocate
  refine keeps_check (keeps_any.bind fun ht _ => keeps_any.bind fun st _ => ?_)
  refine keeps_check ((h.setHt _).bind fun _ _ => (h.put _ hcls).bind fun _ hbase => ?_)
  exact (h.put _ hsize).bind fun _ _ => (h.clear _ _).bind fun _ _ => keeps_pure hbase

theorem element (a i : Word) (array : Bool) : Keeps I (element a i array) (fun _ => True) := by
  unfold Machine.element
  refine keeps_check (keeps_any.bind fun ht _ => keeps_any.bind fun size _ => ?_)
  refine keeps_check ?_
  cases array with
  | false =>
    exact (h.fetch _).bind fun _ _ => keeps_check (keeps_pure trivial)
  | true =>
    simp only [if_true]
    exact (h.fetch _).bind fun _ _ =>
      keeps_check ((h.fetch _).bind fun _ _ => keeps_check (keeps_pure trivial))

theorem arrayLength (a : Word) : Keeps I (arrayLength a) V := by
  unfold Machine.arrayLength
  refine keeps_check (keeps_any.bind fun ht _ => keeps_any.bind fun size _ => ?_)
  exact keeps_check ((h.fetch _).bind fun _ _ => keeps_check (h.fetch _))

theorem println {w : Word} (hw : V w) : Keeps I (write (decimal w ++ newline)) (fun _ => True) := by
  intro s hs
  unfold Machine.write
  split
  · exact hs
  · exact ⟨h.printed hs hw, trivial⟩

theorem drop (d : Word) : Keeps I (drop d) (fun _ => True) := by
  intro s hs
  unfold Machine.drop
  split
  · exact hs
  · exact ⟨h.stack _ hs, trivial⟩

theorem mapTop {f : Word → Word} (hf : ∀ w, V w → V (f w)) : Keeps I (mapTop f) (fun _ => True) :=
  h.pop.bind fun w hw => h.push (hf w hw)

theorem binaryTop {p : Prim} (hp : p ≠ .mod) : Keeps I (binaryTop p) (fun _ => True) := by
  rw [binaryTop_eq]
  refine h.pop2.bind fun x _ => ?_
  have hV (v : Word) (hv : binary p x.1 x.2 = .ok v) : V v := by
    cases p with
    | mod => exact absurd rfl hp
    | add | sub | mult =>
      cases hv
      exact h.cut _
    | div =>
      rw [binary] at hv
      split at hv
      · cases hv
      · cases hv
        exact h.cut _
    | _ =>
      cases hv
      exact h.truth _
  cases hb : binary p x.1 x.2 with
  | ok v => exact h.push (hV v hb)
  | error f => exact keeps_fault

theorem call (target : Word) {object : Word} (hobject : V object) :
    Keeps I (call target object) (fun t => t = target) := by
  intro s hs
  have hpush := h.push_at (h.object hs) hs
  refine Ends.bind (x := Machine.push s.ob) hpush fun _ hbase => ?_
  refine (keeps_look fun s hs => h.frame hs).bind fun lb hlb => (h.push hlb).bind fun _ _ => ?_
  refine (keeps_look fun s hs => h.next hs).bind fun back hback => (h.push hback).bind fun _ _ => ?_
  exact fun u hu => ⟨h.bases hu hbase hobject, rfl⟩

theorem leaveFrame (n d : Word) : Keeps I (leaveFrame n d) (fun _ => True) := by
  unfold Machine.leaveFrame
  refine (h.popMany n).bind fun results hresults => keeps_any.bind fun base _ =>
    (h.fetch base).bind fun ob hob => ?_
  refine (h.fetch _).bind fun lb hlb => (h.fetch _).bind fun back _ => (h.setSt _).bind fun _ _ =>
    keeps_check ?_
  exact (h.pushAll hresults).bind fun _ _ u hu => ⟨h.bases hu hlb hob, trivial⟩

end Stable

end Actions

/-- The primitives that generated code calls. -/
def emitted : List Prim :=
  [.not, .neg, .add, .sub, .mult, .div, .lt, .le, .ge, .gt, .eq, .ne, .putintnl, .newobj, .newarr,
    .arraylen,
    .arrayref, .fieldref, .arrayupd, .fieldupd]

/-- The instructions of generated code whose literals have the property `V`. -/
inductive Emitted (V : Word → Prop) : Instr → Prop
  | literal {d : Word} : V d → Emitted V (.of .loadl 0 .zr d)
  | this : Emitted V (.of .loada 0 .ob 0)
  | load (r : Reg) (d : Word) : Emitted V (.of .load 0 r d)
  | store (r : Reg) (d : Word) : Emitted V (.of .store 0 r d)
  | reserve (d : Word) : Emitted V (.of .push 0 .zr d)
  | drop (d : Word) : Emitted V (.of .pop 0 .zr d)
  | jump (d : Word) : Emitted V (.of .jump 0 .cb d)
  | jumpIf (n d : Word) : Emitted V (.of .jumpif n .cb d)
  | call (d : Word) : Emitted V (.of .call 0 .cb d)
  | callOn (d : Word) : Emitted V (.of .calli 0 .cb d)
  | ret (n d : Word) : Emitted V (.of .ret n .zr d)
  | halt : Emitted V (.of .halt 0 .zr 0)
  | prim {p : Prim} : p ∈ emitted → Emitted V (.prim p)

/-- Where control goes from the address `c`: to the next instruction, or where a jump, a call or a
return leads. -/
def GoesTo (c : Word) (i : Instr) (t : Word) : Prop :=
  t = c + 1 ∧ i.op ≠ Op.jump.number ∨ (i.isJump || i.isCall) = true ∧ t = i.d ∨ i.op = Op.ret.number

section Instructions

variable {V : Word → Prop} {I : State → Prop} {c : Word} {i : Instr} {size : Nat}

theorem keeps_next (hop : i.op ≠ Op.jump.number)
    (hcp : ∀ s, I s → s.cp = c) : Keeps I next (GoesTo c i) :=
  keeps_look fun s hs => .inl ⟨by rw [hcp s hs], hop⟩

theorem effect_prim (p : Prim) : effect size (.prim p) = (do primitive p; next) := by
  cases p <;> rfl

namespace Stable

variable (h : Stable V I)

include h

theorem primitive {p : Prim} (hp : p ∈ emitted)
    (hneg : p ≠ .neg) : Keeps I (primitive p) (fun _ => True) := by
  have hbinary {q : Prim} (hq : Machine.primitive q = Machine.binaryTop q) (hmod : q ≠ .mod) :
      Keeps I (Machine.primitive q) (fun _ => True) := by
    rw [hq]
    exact h.binaryTop hmod
  cases p with
  | not => exact h.mapTop fun _ _ => h.truth _
  | neg => exact absurd rfl hneg
  | add | sub | mult | div | lt | le | ge | gt | eq | ne => exact hbinary rfl (by decide)
  | putintnl => exact h.pop.bind fun _ hw => h.println hw
  | newobj => exact h.pop2.bind fun x hx => (h.allocate hx.1 hx.2).bind fun _ hw => h.push hw
  | newarr => exact h.pop.bind fun _ hsize => (h.allocate h.array hsize).bind fun _ hw => h.push hw
  | arraylen => exact h.pop.bind fun a _ => (h.arrayLength a).bind fun _ hw => h.push hw
  | arrayref | fieldref =>
    exact h.pop2.bind fun _ _ => (h.element _ _ _).bind fun a _ => (h.fetch a).bind fun _ hw =>
      h.push hw
  | arrayupd | fieldupd =>
    exact h.pop3.bind fun _ hx => (h.element _ _ _).bind fun a _ => (h.put a hx.2.2).imp fun _ _ =>
      trivial
  | _ => exact absurd hp (by decide)

theorem effect (hi : Emitted V i) (hneg : i ≠ .prim .neg) (hcp : ∀ s, I s → s.cp = c) :
    Keeps I (effect size i) (GoesTo c i) := by
  have haddress {op : Op} {n d : Word}
      (htarget : (Instr.of op n .cb d).isJump || (Instr.of op n .cb d).isCall) :
      Keeps I (Machine.address size (.of op n .cb d)) (GoesTo c (.of op n .cb d)) :=
    keeps_look fun s _ => .inr (.inl ⟨htarget, by simp [Instr.of, Reg.ofNumber?_number, regValue]⟩)
  have hnext {op : Op} {n d : Word} {r : Reg} (hop : op ≠ .jump) :
      Keeps I Machine.next (GoesTo c (.of op n r d)) :=
    keeps_next (Instr.of_op_ne hop) hcp
  cases hi with
  | literal hd => exact (h.push hd).bind fun _ _ => hnext (by decide)
  | this =>
    have hself : Keeps I (Machine.address size (.of .loada 0 .ob 0)) V :=
      keeps_look fun s hs => by simpa [Instr.of, Reg.ofNumber?_number, regValue] using h.object hs
    exact hself.bind fun _ hw => (h.push hw).bind fun _ _ => hnext (by decide)
  | load r d =>
    exact keeps_any.bind fun a _ => (h.load a).bind fun _ hw => (h.push hw).bind fun _ _ =>
      hnext (by decide)
  | store r d =>
    exact h.pop.bind fun _ hw => keeps_any.bind fun a _ => (h.store a hw).bind fun _ _ =>
      hnext (by decide)
  | reserve d => exact (h.pushZeros _).bind fun _ _ => hnext (by decide)
  | drop d => exact (h.drop d).bind fun _ _ => hnext (by decide)
  | jump d => exact haddress rfl
  | jumpIf n d => exact h.pop.bind fun _ _ => keeps_ite (haddress rfl) (hnext (by decide))
  | call d =>
    refine (haddress rfl).bind fun t ht => (keeps_look fun s hs => h.object hs).bind fun _ hob => ?_
    exact (h.call t hob).imp fun _ heq => heq ▸ ht
  | callOn d =>
    refine h.pop.bind fun _ hob => (haddress rfl).bind fun t ht => ?_
    exact (h.call t hob).imp fun _ heq => heq ▸ ht
  | ret n d => exact (h.leaveFrame n d).imp fun _ _ => .inr (.inr rfl)
  | halt => exact keeps_fault
  | @prim p hp =>
    rw [effect_prim]
    exact (h.primitive hp fun heq => hneg (heq ▸ rfl)).bind fun _ _ => hnext (by decide)

end Stable

/-- A step of generated code keeps what is stable, but for the address of the next instruction. -/
theorem Stable.execute (h : Stable V I) (hi : Emitted V i) (hcp : ∀ s, I s → s.cp = c) {s : State}
    (hs : I s) (hneg : i = .prim .neg → Ends I (fun _ => True) (Machine.primitive .neg s)) :
    Ends (fun s' => I { s' with cp := c }) (fun _ => True) (execute size i s) ∧
      ∀ u s', execute size i s = .ok u s' → GoesTo c i s'.cp := by
  have heffect : Ends I (GoesTo c i) (Machine.effect size i s) := by
    by_cases hi' : i = .prim .neg
    · subst hi'
      rw [effect_prim]
      exact (hneg rfl).bind fun _ _ => keeps_next (by decide) hcp
    · exact h.effect hi hi' hcp s hs
  have hback {u : State} (hu : I u) : I { u with cp := c } := by
    rw [← hcp u hu]
    exact hu
  cases he : Machine.effect size i s with
  | ok t u =>
    rw [he] at heffect
    have hexecute : Machine.execute size i s = .ok () { u with cp := t } := EStateM.bind_of_ok he
    rw [hexecute]
    have hu : I { u with cp := c } := hback heffect.1
    refine ⟨⟨hu, trivial⟩, fun v s' heq => ?_⟩
    cases heq
    exact heffect.2
  | error e u =>
    rw [he] at heffect
    have hexecute : Machine.execute size i s = .error e u := EStateM.bind_of_error he
    rw [hexecute]
    exact ⟨hback heffect, nofun⟩

theorem prefix_append {o : Output} {text : Bytes} (h : text <+: o.written.toList) (bs : Bytes) :
    text <+: (o.append bs).written.toList := by
  unfold Output.append
  split
  · exact h
  · simpa using h.trans (List.prefix_append _ bs)

/-- The address of the next instruction is kept by what an instruction does before it goes on, and
what has been printed stays. -/
theorem stable_cp (c : Word) (text : Bytes) :
    Stable (fun _ => True) (fun s => s.cp = c ∧ text <+: s.output.written.toList) where
  fetched _ _ := trivial
  stored _ hs _ := hs
  stack _ hs := hs
  heap _ hs := hs
  bases hs _ _ := hs
  object _ := trivial
  frame _ := trivial
  next _ := trivial
  printed hs _ := ⟨hs.1, prefix_append hs.2 _⟩
  address _ _ := trivial
  cut _ := trivial
  truth _ := trivial
  array := trivial

/-- What has been printed before an instruction and where execution goes from it. -/
theorem Emitted.step (hi : Emitted (fun _ => True) i) {s s' : State} {u : Unit}
    (he : Machine.execute size i s = .ok u s') :
    s.output.written.toList <+: s'.output.written.toList ∧ GoesTo s.cp i s'.cp := by
  have hstable := stable_cp s.cp s.output.written.toList
  have hneg : Keeps _ (Machine.primitive .neg) (fun _ => True) := hstable.mapTop fun _ _ => trivial
  have hs : s.cp = s.cp ∧ s.output.written.toList <+: s.output.written.toList :=
    ⟨rfl, List.prefix_refl _⟩
  obtain ⟨hends, hgoes⟩ := hstable.execute hi (fun _ h => h.1) hs fun _ => hneg s hs
  rw [he] at hends
  exact ⟨hends.1.2, hgoes u s' he⟩

end Instructions

/-- What each step keeps that starts from a state which is `fine`, a run keeps as long as its states
are fine. -/
theorem run_keeps {I : State → Prop} (fine : State → Prop) {code : Code} {n steps : Nat}
    {s : State}
    (hstep : ∀ s a, I s → fine s → s.cp.index? code.size = some a →
      (code.instr a).op ≠ Op.halt.number →
      Ends I (fun _ => True) (execute code.size (code.instr a) s)) (hs : I s)
    (hfine : ∀ k < n, (run code k steps s).ending = .outOfFuel → fine (run code k steps s).state) :
    I (run code n steps s).state := by
  induction n generalizing steps s with
  | zero => exact hs
  | succ n ih =>
    cases ha : s.cp.index? code.size with
    | none => simpa only [run, ha] using hs
    | some a =>
      by_cases hop : (code.instr a).op = Op.halt.number
      · simpa only [run, ha, hop, if_true] using hs
      · have hends := hstep s a hs (hfine 0 (by omega) rfl) ha hop
        cases he : execute code.size (code.instr a) s with
        | error e s' =>
          rw [he] at hends
          simp only [run, ha, hop, if_false, he]
          exact hends
        | ok u s' =>
          rw [he] at hends
          simp only [run, ha, hop, if_false, he] at hfine ⊢
          refine ih hends.1 fun k hk => ?_
          have := hfine (k + 1) (by omega)
          simpa only [run, ha, hop, if_false, he] using this

theorem run_first {code : Code} {n steps : Nat} {s : State}
    (h : (run code (n + 1) steps s).ending = .outOfFuel) :
    ∃ a s', s.cp.index? code.size = some a ∧ (code.instr a).op ≠ Op.halt.number ∧
      execute code.size (code.instr a) s = .ok () s' ∧
      ∀ m, run code (m + 1) steps s = run code m (steps + 1) s' := by
  rw [run] at h
  cases ha : s.cp.index? code.size with
  | none => simp [ha] at h
  | some a =>
    by_cases hop : (code.instr a).op = Op.halt.number
    · simp [ha, hop] at h
    · cases he : execute code.size (code.instr a) s with
      | error e s' => simp [ha, hop, he] at h
      | ok u s' => exact ⟨a, s', rfl, hop, he, fun m => by simp only [run, ha, hop, if_false, he]⟩

theorem run_last {code : Code} {n steps : Nat} {s : State}
    (h : (run code (n + 1) steps s).ending = .outOfFuel) :
    ∃ a, (run code n steps s).state.cp.index? code.size = some a ∧
      execute code.size (code.instr a) (run code n steps s).state =
        .ok () (run code (n + 1) steps s).state := by
  induction n generalizing steps s with
  | zero =>
    obtain ⟨a, s', ha, -, he, hrun⟩ := run_first h
    exact ⟨a, ha, by rw [hrun]; exact he⟩
  | succ n ih =>
    obtain ⟨a, s', -, -, -, hrun⟩ := run_first h
    rw [hrun] at h ⊢
    rw [hrun]
    exact ih h

end MiniJava.Machine
