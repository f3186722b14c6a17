import MiniJava.Proofs.Machine.Invariant
/-!
What work on the stack leaves alone. Most instructions only push and pop words, set registers and
use the channels. A property of states that survives these changes survives all such instructions;
what is left are the stores, the allocations and the two instructions that set the stack top
themselves.
-/
namespace MiniJava

/-- The primitives that store words at addresses of the memory or take blocks from the heap. -/
def Prim.writes : Prim → Bool
  | .alloc | .newobj | .newarr | .arrayupd | .fieldupd => true
  | _ => false

/-- The primitive that an instruction calls. -/
def Instr.called? (i : Instr) : Option Prim :=
  if Op.ofNumber? i.op = some .call ∧ i.r = Reg.pb.number then Prim.ofNumber? i.d else none

namespace Machine

section Effects

variable {i : Instr} {size : Nat}

theorem effect_of_store (h : Op.ofNumber? i.op = some .store) :
    effect size i = pop >>= fun v => address size i >>= fun a => store a v >>= fun _ => next := by
  -- The body is opened as it stands: the equation of so long a match takes long to make.
  delta effect
  rw [h]

theorem effect_of_storei (h : Op.ofNumber? i.op = some .storei) :
    effect size i = pop2 >>= fun x => store x.2 x.1 >>= fun _ => next := by
  delta effect
  rw [h]

theorem effect_of_called {p : Prim} (h : i.called? = some p) :
    effect size i = primitive p >>= fun _ => next := by
  unfold Instr.called? at h
  split at h
  · rename_i hcall
    delta effect
    simp only [hcall.1, if_pos hcall.2, h]
  · cases h

theorem effect_of_call (hop : Op.ofNumber? i.op = some .call) (hreg : i.r ≠ Reg.pb.number) :
    effect size i = address size i >>= fun target => look State.ob >>= fun object =>
      call target object := by
  delta effect
  rw [hop]
  exact if_neg hreg

theorem effect_of_calli (hop : Op.ofNumber? i.op = some .calli) :
    effect size i = pop >>= fun object => address size i >>= fun target => call target object := by
  delta effect
  rw [hop]

theorem effect_of_pop (h : Op.ofNumber? i.op = some .pop) :
    effect size i = drop i.d >>= fun _ => next := by
  delta effect
  rw [h]

theorem effect_of_ret (h : Op.ofNumber? i.op = some .ret) : effect size i = leaveFrame i.n i.d := by
  delta effect
  rw [h]

end Effects

/-- An action keeps a property of states, whatever its result is. -/
abbrev Preserves {α : Type} (I : State → Prop) (x : Action α) : Prop := Keeps I x fun _ => True

/-- A property of states that survives pushes and pops, new values of the other registers and what
goes over the channels. -/
structure OffStack (I : State → Prop) : Prop where
  pushed : ∀ {s : State} {i : Fin s.data.size} (w : Word), I s → ¬ s.ht ≤ s.st →
    s.st.index? s.data.size = some i →
    I { s with data := s.data.set i w i.isLt, st := s.st + 1 }
  popped : ∀ {s : State}, I s → ¬ s.st ≤ 0 → I { s with st := s.st - 1 }
  linked : ∀ {s : State} (lb ob : Word), I s → I { s with lb, ob }
  placed : ∀ {s : State} (cp : Word), I s → I { s with cp }
  heard : ∀ {s : State} (input : Option Input), I s → I { s with input }
  told : ∀ {s : State} (output : Output), I s → I { s with output }

section Actions

variable {α β : Type} {I J : State → Prop}

theorem OffStack.and (hI : OffStack I) (hJ : OffStack J) : OffStack fun s => I s ∧ J s where
  pushed w hs hroom hi := ⟨hI.pushed w hs.1 hroom hi, hJ.pushed w hs.2 hroom hi⟩
  popped hs hfull := ⟨hI.popped hs.1 hfull, hJ.popped hs.2 hfull⟩
  linked lb ob hs := ⟨hI.linked lb ob hs.1, hJ.linked lb ob hs.2⟩
  placed cp hs := ⟨hI.placed cp hs.1, hJ.placed cp hs.2⟩
  heard input hs := ⟨hI.heard input hs.1, hJ.heard input hs.2⟩
  told output hs := ⟨hI.told output hs.1, hJ.told output hs.2⟩

theorem Preserves.bind {x : Action α} {f : α → Action β} (hx : Preserves I x)
    (hf : ∀ a, Preserves I (f a)) : Preserves I (x >>= f) := Keeps.bind hx fun a _ => hf a

theorem preserves_pure (a : α) : Preserves I (pure a) := keeps_pure trivial

theorem preserves_fetch (a : Word) : Preserves I (fetch a) := by
  intro s hs
  unfold fetch
  split
  · exact ⟨hs, trivial⟩
  · exact hs

theorem preserves_load (a : Word) : Preserves I (load a) :=
  Preserves.bind (Stable.checkAddress a) fun _ => preserves_fetch a

/-- The checks of an element change nothing, and its address is the sum of the block's address and
the index. -/
theorem keeps_element (a i : Word) (array : Bool) :
    Keeps I (element a i array) fun b => b = a + i := by
  unfold element
  apply keeps_check
  apply Keeps.bind keeps_any
  intro ht _
  apply Keeps.bind keeps_any
  intro size _
  apply keeps_check
  have hcount (f : Word → Fault) : Keeps I (do
      let count ← fetch (a - 1)
      if i < 0 ∨ count ≤ i then fault (f count)
      return a + i) fun b => b = a + i :=
    Keeps.bind (preserves_fetch _) fun count _ => keeps_check (keeps_pure rfl)
  cases array with
  | false => exact hcount _
  | true => exact Keeps.bind (preserves_fetch _) fun cls _ => keeps_check (hcount _)

theorem preserves_element (a i : Word) (array : Bool) : Preserves I (element a i array) :=
  (keeps_element a i array).imp fun _ _ => trivial

theorem preserves_arrayLength (a : Word) : Preserves I (arrayLength a) := by
  unfold arrayLength
  apply keeps_check
  apply Preserves.bind keeps_any
  intro ht
  apply Preserves.bind keeps_any
  intro size
  apply keeps_check
  apply Preserves.bind (preserves_fetch _)
  intro cls
  exact keeps_check (preserves_fetch _)

theorem preserves_drop (hset : ∀ {s : State} (st : Word), I s → I { s with st })
    (d : Word) : Preserves I (drop d) := by
  intro s hs
  unfold drop
  split
  · exact hs
  · exact ⟨hset _ hs, trivial⟩

namespace OffStack

variable (h : OffStack I)

include h

theorem push (w : Word) : Preserves I (push w) := by
  intro s hs
  unfold Machine.push
  split
  · exact hs
  · rename_i hroom
    split
    · rename_i i hi
      exact ⟨h.pushed w hs hroom hi, trivial⟩
    · exact hs

theorem pop : Preserves I pop := by
  intro s hs
  unfold Machine.pop
  split
  · exact hs
  · rename_i hfull
    simp only
    split
    · exact ⟨h.popped hs hfull, trivial⟩
    · exact h.popped hs hfull

theorem popOnto (n : Nat) (above : List Word) : Preserves I (popOnto n above) := by
  induction n generalizing above with
  | zero => exact preserves_pure above
  | succ n ih => exact h.pop.bind fun w => ih (w :: above)

theorem popMany (n : Word) : Preserves I (popMany n) :=
  keeps_ite (fun _ hs => hs) (h.popOnto _ _)

theorem pop2 : Preserves I pop2 := h.pop.bind fun _ => h.pop.bind fun _ => preserves_pure _

theorem pop3 : Preserves I pop3 :=
  h.pop.bind fun _ => h.pop.bind fun _ => h.pop.bind fun _ => preserves_pure _

theorem pushAll (ws : List Word) : Preserves I (pushAll ws) := by
  induction ws with
  | nil => exact preserves_pure ()
  | cons w ws ih => exact (h.push w).bind fun _ => ih

theorem pushZeros (n : Nat) : Preserves I (pushZeros n) := by
  induction n with
  | zero => exact preserves_pure ()
  | succ n ih => exact (h.push 0).bind fun _ => ih

theorem write (bs : Bytes) : Preserves I (write bs) := by
  intro s hs
  unfold Machine.write
  split
  · exact hs
  · exact ⟨h.told _ hs, trivial⟩

theorem readByte : Preserves I readByte := by
  intro s hs
  unfold Machine.readByte
  split
  · exact ⟨hs, trivial⟩
  · split
    · exact ⟨h.heard _ hs, trivial⟩
    · exact ⟨h.heard _ hs, trivial⟩
    · exact hs

theorem skipLine : Preserves I skipLine := by
  intro s hs
  unfold Machine.skipLine
  split
  · exact ⟨hs, trivial⟩
  · split
    · exact ⟨h.heard _ hs, trivial⟩
    · exact h.heard _ hs

theorem readInt : Preserves I readInt := by
  intro s hs
  unfold Machine.readInt
  split
  · exact hs
  · split
    · exact ⟨h.heard _ hs, trivial⟩
    · exact h.heard _ hs

theorem mapTop (f : Word → Word) : Preserves I (mapTop f) := h.pop.bind fun _ => h.push _

theorem binaryTop (p : Prim) : Preserves I (binaryTop p) := by
  rw [binaryTop_eq]
  apply h.pop2.bind
  intro x
  cases binary p x.1 x.2 with
  | ok v => exact h.push v
  | error f => exact keeps_fault

theorem primitive {p : Prim} (hp : Prim.writes p = false) : Preserves I (primitive p) := by
  have hbinary {q : Prim} (hq : Machine.primitive q = Machine.binaryTop q) :
      Preserves I (Machine.primitive q) := by
    rw [hq]
    exact h.binaryTop q
  cases p with
  | id => exact preserves_pure ()
  | not | neg | succ | pred => exact h.mapTop _
  | and | or | add | sub | mult | div | mod | lt | le | ge | gt | eq | ne => exact hbinary rfl
  | eol | eof => exact Preserves.bind (fun _ hs => ⟨hs, trivial⟩) fun _ => h.push _
  | get => exact h.readByte.bind fun _ => h.push _
  | getint => exact h.readInt.bind fun _ => h.push _
  | geteol => exact h.skipLine
  | puteol => exact h.write _
  | put | putint | putintnl => exact h.pop.bind fun _ => h.write _
  | dispose => exact h.pop2.bind fun _ => preserves_pure ()
  | arraylen => exact h.pop.bind fun _ => (preserves_arrayLength _).bind fun _ => h.push _
  | arrayref | fieldref =>
    exact h.pop2.bind fun _ => (preserves_element _ _ _).bind fun _ =>
      (preserves_fetch _).bind fun _ => h.push _
  | alloc | newobj | newarr | arrayupd | fieldupd => cases hp

theorem call (target object : Word) : Preserves I (call target object) := by
  unfold Machine.call
  apply Preserves.bind keeps_any
  intro base
  apply Preserves.bind keeps_any
  intro ob
  apply (h.push ob).bind
  intro _
  apply Preserves.bind keeps_any
  intro lb
  apply (h.push lb).bind
  intro _
  apply Preserves.bind keeps_any
  intro back
  apply (h.push back).bind
  intro _ s hs
  exact ⟨h.linked base object hs, trivial⟩

theorem effect {i : Instr} {size : Nat} (hstore : Op.ofNumber? i.op ≠ some .store)
    (hstorei : Op.ofNumber? i.op ≠ some .storei) (hpop : Op.ofNumber? i.op ≠ some .pop)
    (hret : Op.ofNumber? i.op ≠ some .ret)
    (hprim : ∀ p, i.called? = some p → Prim.writes p = false) : Preserves I (effect size i) := by
  have haddress : Preserves I (address size i) := keeps_any
  have hnext : Preserves I next := keeps_any
  unfold Machine.effect
  cases hop : Op.ofNumber? i.op with
  | none => exact keeps_fault
  | some op =>
    cases op with
    | load =>
      exact haddress.bind fun _ => (preserves_load _).bind fun _ => (h.push _).bind fun _ => hnext
    | loada => exact haddress.bind fun _ => (h.push _).bind fun _ => hnext
    | loadi =>
      exact h.pop.bind fun _ => (preserves_load _).bind fun _ => (h.push _).bind fun _ => hnext
    | loadl => exact (h.push _).bind fun _ => hnext
    | store => exact absurd hop hstore
    | storei => exact absurd hop hstorei
    | call =>
      by_cases hr : i.r = Reg.pb.number
      · simp only [if_pos hr]
        cases hd : Prim.ofNumber? i.d with
        | some p =>
          have hcalled : i.called? = some p := by rw [Instr.called?, if_pos ⟨hop, hr⟩, hd]
          exact (h.primitive (hprim p hcalled)).bind fun _ => hnext
        | none => exact Preserves.bind keeps_fault fun _ => hnext
      · simp only [if_neg hr]
        exact haddress.bind fun _ => Preserves.bind keeps_any fun _ => h.call _ _
    | calli => exact h.pop.bind fun _ => haddress.bind fun _ => h.call _ _
    | ret => exact absurd hop hret
    | push => exact (h.pushZeros _).bind fun _ => hnext
    | pop => exact absurd hop hpop
    | jump => exact haddress
    | jumpi => exact h.pop
    | jumpif => exact h.pop.bind fun _ => keeps_ite haddress hnext
    | halt => exact keeps_fault

theorem leaveFrame (hset : ∀ {s : State} (st : Word), I s → I { s with st })
    (n d : Word) : Preserves I (leaveFrame n d) := by
  have hland (results : List Word) (base lb ob back : Word) : Preserves I (do
      setSt (base - d)
      if base - d < 0 then fault (.returnBelowBase d)
      Machine.pushAll results
      fun s => .ok back { s with lb, ob }) := by
    have htop : Preserves I (setSt (base - d)) := fun s hs => ⟨hset _ hs, trivial⟩
    apply htop.bind
    intro _
    apply keeps_check
    exact (h.pushAll results).bind fun _ _ hs => ⟨h.linked lb ob hs, trivial⟩
  apply (h.popMany n).bind
  intro results
  apply Preserves.bind keeps_any
  intro base
  apply (preserves_fetch base).bind
  intro ob
  apply (preserves_fetch _).bind
  intro lb
  apply (preserves_fetch _).bind
  intro back
  exact hland results base lb ob back

theorem execute {size : Nat} {i : Instr} {s : State}
    (heffect : Ends I (fun _ => True) (Machine.effect size i s)) :
    Ends I (fun _ => True) (execute size i s) :=
  heffect.bind fun t _ _ hs => ⟨h.placed t hs, trivial⟩

end OffStack

end Actions

end Machine

end MiniJava
