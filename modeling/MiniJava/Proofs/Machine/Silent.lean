import MiniJava.Proofs.Machine.Shift
/-!
The machine does not read back what it has written: as long as the output takes all writes, a run
goes through the same states, up to the output, as one whose output is discarded.
-/
namespace MiniJava.Machine

/-- The state with an output that takes all writes and keeps nothing. -/
def State.silent (s : State) : State := { s with output := { sink := .discard } }

theorem State.initial_silent (input : Option Input) (sink : Sink) :
    (State.initial input sink).silent = State.initial input .discard := rfl

/-- An action that succeeds does so whatever becomes of the output. -/
def Unheard {α : Type} (x : Action α) : Prop :=
  ∀ s a s', x s = .ok a s' → x s.silent = .ok a s'.silent

section

variable {α β : Type}

theorem Unheard.bind {x : Action α} {f : α → Action β} (hx : Unheard x) (hf : ∀ a, Unheard (f a)) :
    Unheard (x >>= f) := by
  intro s b s' h
  obtain ⟨a, u, hu, hs'⟩ := EStateM.bind_eq_ok.mp h
  rw [EStateM.bind_of_ok (hx s a u hu)]
  exact hf a u b s' hs'

theorem unheard_pure (a : α) : Unheard (pure a) := by
  intro s b s' h
  cases h
  rfl

theorem unheard_fault {f : Fault} : Unheard (fault f : Action α) := by
  intro s b s' h
  cases h

theorem unheard_look {f : State → Word}
    (hf : ∀ s : State, f s.silent = f s) : Unheard (look f) := by
  intro s b s' h
  cases h
  rw [look, hf]

theorem unheard_set {a : α} {f : State → State} (hf : ∀ s : State, f s.silent = (f s).silent) :
    Unheard fun s => .ok a (f s) := by
  intro s b s' h
  cases h
  exact congrArg (EStateM.Result.ok a) (hf s)

theorem unheard_ite {c : Prop} [Decidable c] {x y : Action α} (hx : Unheard x) (hy : Unheard y) :
    Unheard (if c then x else y) := by
  split
  · exact hx
  · exact hy

theorem unheard_check {c : Prop} [Decidable c] {f : Fault} {k : Unit → Action α}
    (hk : Unheard (k ())) : Unheard (if c then fault f >>= k else k ()) := by
  intro s a s' h
  by_cases hc : c
  · rw [if_pos hc] at h
    cases h
  · rw [if_neg hc] at h ⊢
    exact hk s a s' h

end

theorem unheard_push (w : Word) : Unheard (push w) := by
  intro s a s' h
  grind [push, State.silent]

theorem unheard_pop : Unheard pop := by
  intro s a s' h
  grind [pop, State.silent]

theorem unheard_fetch (a : Word) : Unheard (fetch a) := by
  intro s w s' h
  grind [fetch, State.silent]

theorem unheard_put (a w : Word) : Unheard (put a w) := by
  intro s u s' h
  grind [put, State.silent]

theorem unheard_checkAddress (a : Word) : Unheard (checkAddress a) := by
  intro s u s' h
  grind [checkAddress, State.silent]

theorem unheard_write (bs : Bytes) : Unheard (write bs) := by
  intro s u s' h
  unfold write at h
  split at h
  · cases h
  · cases h
    rfl

theorem unheard_drop (d : Word) : Unheard (drop d) := by
  intro s u s' h
  grind [drop, State.silent]

theorem unheard_setSt (a : Word) : Unheard (setSt a) :=
  unheard_set (f := fun s => { s with st := a }) fun _ => rfl

theorem unheard_setHt (a : Word) : Unheard (setHt a) :=
  unheard_set (f := fun s => { s with ht := a }) fun _ => rfl

theorem unheard_load (a : Word) : Unheard (load a) :=
  (unheard_checkAddress a).bind fun _ => unheard_fetch a

theorem unheard_store (a w : Word) : Unheard (store a w) :=
  (unheard_checkAddress a).bind fun _ => unheard_put a w

theorem unheard_clear (n : Nat) (a : Word) : Unheard (clear n a) := by
  induction n generalizing a with
  | zero => exact unheard_pure ()
  | succ n ih => exact (unheard_put a 0).bind fun _ => ih (a + 1)

theorem unheard_pushZeros (n : Nat) : Unheard (pushZeros n) := by
  induction n with
  | zero => exact unheard_pure ()
  | succ n ih => exact (unheard_push 0).bind fun _ => ih

theorem unheard_pushAll (ws : List Word) : Unheard (pushAll ws) := by
  induction ws with
  | nil => exact unheard_pure ()
  | cons w ws ih => exact (unheard_push w).bind fun _ => ih

theorem unheard_popOnto (n : Nat) (ws : List Word) : Unheard (popOnto n ws) := by
  induction n generalizing ws with
  | zero => exact unheard_pure ws
  | succ n ih => exact unheard_pop.bind fun w => ih (w :: ws)

theorem unheard_popMany (n : Word) : Unheard (popMany n) := by
  apply unheard_ite
  · intro s a s' h
    cases h
  · exact unheard_popOnto _ _

theorem unheard_pop2 : Unheard pop2 :=
  unheard_pop.bind fun _ => unheard_pop.bind fun _ => unheard_pure _

theorem unheard_pop3 : Unheard pop3 :=
  unheard_pop.bind fun _ => unheard_pop.bind fun _ => unheard_pop.bind fun _ => unheard_pure _

theorem unheard_allocate (cls size : Word) : Unheard (allocate cls size) := by
  unfold allocate
  refine unheard_check ((unheard_look fun _ => rfl).bind fun ht => (unheard_look fun _ => rfl).bind
    fun st => ?_)
  refine unheard_check ((unheard_setHt _).bind fun _ => (unheard_put _ _).bind fun _ =>
    (unheard_put _ _).bind fun _ => ?_)
  exact (unheard_clear _ _).bind fun _ => unheard_pure _

theorem unheard_element (a i : Word) (array : Bool) : Unheard (element a i array) := by
  unfold element
  refine unheard_check ((unheard_look fun _ => rfl).bind fun ht => (unheard_look fun _ => rfl).bind
    fun size => ?_)
  refine unheard_check ?_
  have hcount : Unheard (do
      let count ← fetch (a - 1)
      if i < 0 ∨ count ≤ i then fault (.indexOutOfRange i count)
      return a + i) := (unheard_fetch _).bind fun _ => unheard_check (unheard_pure _)
  cases array with
  | false => exact hcount
  | true =>
    simp only [if_true]
    exact (unheard_fetch _).bind fun _ => unheard_check hcount

theorem unheard_arrayLength (a : Word) : Unheard (arrayLength a) := by
  unfold arrayLength
  refine unheard_check ((unheard_look fun _ => rfl).bind fun ht => (unheard_look fun _ => rfl).bind
    fun size => ?_)
  exact unheard_check ((unheard_fetch _).bind fun _ => unheard_check (unheard_fetch _))

theorem unheard_binaryTop (p : Prim) : Unheard (binaryTop p) := by
  rw [binaryTop_eq]
  refine unheard_pop2.bind fun x => ?_
  cases binary p x.1 x.2 with
  | ok v => exact unheard_push v
  | error f => exact unheard_fault

theorem unheard_primitive {p : Prim} (hp : p ∈ emitted) : Unheard (primitive p) := by
  cases p with
  | not | neg => exact unheard_pop.bind fun _ => unheard_push _
  | add => exact unheard_binaryTop .add
  | sub => exact unheard_binaryTop .sub
  | mult => exact unheard_binaryTop .mult
  | div => exact unheard_binaryTop .div
  | lt => exact unheard_binaryTop .lt
  | le => exact unheard_binaryTop .le
  | ge => exact unheard_binaryTop .ge
  | gt => exact unheard_binaryTop .gt
  | eq => exact unheard_binaryTop .eq
  | ne => exact unheard_binaryTop .ne
  | putintnl => exact unheard_pop.bind fun _ => unheard_write _
  | newobj => exact unheard_pop2.bind fun _ => (unheard_allocate _ _).bind fun _ => unheard_push _
  | newarr => exact unheard_pop.bind fun _ => (unheard_allocate _ _).bind fun _ => unheard_push _
  | arraylen => exact unheard_pop.bind fun _ => (unheard_arrayLength _).bind fun _ => unheard_push _
  | arrayref | fieldref =>
    exact unheard_pop2.bind fun _ => (unheard_element _ _ _).bind fun _ =>
      (unheard_fetch _).bind fun _ => unheard_push _
  | arrayupd | fieldupd =>
    exact unheard_pop3.bind fun _ => (unheard_element _ _ _).bind fun _ => unheard_put _ _
  | _ => exact absurd hp (by decide)

theorem unheard_next : Unheard next := unheard_look fun _ => rfl

theorem unheard_address (size : Nat) (i : Instr) : Unheard (address size i) := by
  apply unheard_look
  intro s
  cases Reg.ofNumber? i.r with
  | none => rfl
  | some r => cases r <;> rfl

theorem unheard_call (target object : Word) : Unheard (call target object) := by
  refine (unheard_look fun _ => rfl).bind fun base => (unheard_look fun _ => rfl).bind fun ob => ?_
  refine (unheard_push ob).bind fun _ => (unheard_look fun _ => rfl).bind fun lb =>
    (unheard_push lb).bind fun _ => ?_
  exact unheard_next.bind fun back => (unheard_push back).bind fun _ =>
    unheard_set (f := fun s => { s with lb := base, ob := object }) fun _ => rfl

theorem unheard_leaveFrame (n d : Word) : Unheard (leaveFrame n d) := by
  unfold leaveFrame
  refine (unheard_popMany n).bind fun results => (unheard_look fun _ => rfl).bind fun base => ?_
  refine (unheard_fetch _).bind fun ob => (unheard_fetch _).bind fun lb =>
    (unheard_fetch _).bind fun back => ?_
  refine (unheard_setSt _).bind fun _ => unheard_check ((unheard_pushAll results).bind fun _ => ?_)
  exact unheard_set (f := fun s => { s with lb, ob }) fun _ => rfl

theorem unheard_execute {V : Word → Prop} {i : Instr} (hi : Emitted V i)
    (size : Nat) : Unheard (execute size i) := by
  have heffect : Unheard (effect size i) := by
    cases hi with
    | literal => exact (unheard_push _).bind fun _ => unheard_next
    | this => exact (unheard_address _ _).bind fun _ => (unheard_push _).bind fun _ => unheard_next
    | load r d =>
      exact (unheard_address _ _).bind fun _ => (unheard_load _).bind fun _ =>
        (unheard_push _).bind fun _ => unheard_next
    | store r d =>
      exact unheard_pop.bind fun _ => (unheard_address _ _).bind fun _ =>
        (unheard_store _ _).bind fun _ => unheard_next
    | reserve d => exact (unheard_pushZeros _).bind fun _ => unheard_next
    | drop d => exact (unheard_drop _).bind fun _ => unheard_next
    | jump d => exact unheard_address _ _
    | jumpIf n d => exact unheard_pop.bind fun _ => unheard_ite (unheard_address _ _) unheard_next
    | call d =>
      exact (unheard_address _ _).bind fun _ => (unheard_look fun _ => rfl).bind fun _ =>
        unheard_call _ _
    | callOn d =>
      exact unheard_pop.bind fun _ => (unheard_address _ _).bind fun _ => unheard_call _ _
    | ret n d => exact unheard_leaveFrame _ _
    | halt => exact unheard_fault
    | prim hp =>
      rw [effect_prim]
      exact (unheard_primitive hp).bind fun _ => unheard_next
  exact heffect.bind fun t => unheard_set (f := fun s => { s with cp := t }) fun _ => rfl

/-- A run that has not come to an end goes through the same states when its output is discarded. -/
theorem run_silent {V : Word → Prop} {code : Code} (hcode : ∀ a, Emitted V (code.instr a))
    {n steps : Nat} {s : State} (h : (run code n steps s).ending = .outOfFuel) :
    run code n steps s.silent =
      { run code n steps s with state := (run code n steps s).state.silent } := by
  induction n generalizing steps s with
  | zero => rfl
  | succ n ih =>
    obtain ⟨a, s', ha, hop, he, hrun⟩ := run_first h
    have he' := unheard_execute (hcode a) code.size s () s' he
    have ha' : s.silent.cp.index? code.size = some a := ha
    rw [hrun] at h ⊢
    rw [← ih h, run]
    simp only [ha', hop, if_false, he']

end MiniJava.Machine
