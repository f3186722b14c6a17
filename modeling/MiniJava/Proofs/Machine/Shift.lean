import MiniJava.Proofs.Machine.Invariant
/-!
How many words instructions take off the stack and leave on it, as a table and as what the machine
does.
-/
namespace MiniJava

/-- The words that an instruction takes off the stack, then those that it leaves. -/
structure Shift where
  pops : Nat
  pushes : Nat
  deriving DecidableEq, Repr

def Prim.shift : Prim → Shift
  | .id | .geteol | .puteol => ⟨0, 0⟩
  | .eol | .eof | .get | .getint => ⟨0, 1⟩
  | .not | .neg | .succ | .pred | .alloc | .newarr | .arraylen => ⟨1, 1⟩
  | .put | .putint | .putintnl => ⟨1, 0⟩
  | .and | .or | .add | .sub | .mult | .div | .mod | .lt | .le | .ge | .gt | .eq | .ne => ⟨2, 1⟩
  | .newobj | .arrayref | .fieldref => ⟨2, 1⟩
  | .dispose => ⟨2, 0⟩
  | .arrayupd | .fieldupd => ⟨3, 0⟩

/-- Calls of code depend on what is called; a return takes its results. Nothing is said of a
negative count. -/
def Instr.shift? (i : Instr) : Option Shift :=
  match Op.ofNumber? i.op with
  | some .load | some .loada | some .loadl => some ⟨0, 1⟩
  | some .loadi => some ⟨1, 1⟩
  | some .store | some .jumpi | some .jumpif => some ⟨1, 0⟩
  | some .storei => some ⟨2, 0⟩
  | some .push => some ⟨0, i.d.toInt.toNat⟩
  | some .pop => if 0 ≤ i.d.toInt then some ⟨i.d.toInt.toNat, 0⟩ else none
  | some .jump => some ⟨0, 0⟩
  | some .ret => some ⟨i.n.toInt.toNat, 0⟩
  | some .call => if i.r = Reg.pb.number then (Prim.ofNumber? i.d).map Prim.shift else none
  | some .calli | some .halt | none => none

namespace Machine

/-- An action takes words off the stack and leaves words there, within the same frame. -/
def Moves {α : Type} (x : Action α) (pops pushes : Nat) : Prop :=
  ∀ s a s', x s = .ok a s' → s'.st + Word.ofNat pops = s.st + Word.ofNat pushes ∧ s'.lb = s.lb

section

variable {α β : Type} {pops pushes pops' pushes' : Nat}

theorem Moves.bind {x : Action α} {f : α → Action β} (hx : Moves x pops pushes)
    (hf : ∀ a, Moves (f a) pops' pushes') : Moves (x >>= f) (pops + pops') (pushes + pushes') := by
  intro s b s' h
  obtain ⟨a, u, hu, hs'⟩ := EStateM.bind_eq_ok.mp h
  obtain ⟨h₁, hlb₁⟩ := hx s a u hu
  obtain ⟨h₂, hlb₂⟩ := hf a u b s' hs'
  refine ⟨?_, hlb₂.trans hlb₁⟩
  rw [Word.ofNat_add, Word.ofNat_add]
  grind

theorem Moves.still {x : Action α} {f : α → Action β} (hx : Moves x 0 0)
    (hf : ∀ a, Moves (f a) pops pushes) : Moves (x >>= f) pops pushes := by
  have h := hx.bind hf
  rwa [Nat.zero_add, Nat.zero_add] at h

theorem Moves.then {x : Action α} {f : α → Action β} (hx : Moves x pops pushes)
    (hf : ∀ a, Moves (f a) 0 0) : Moves (x >>= f) pops pushes := by
  have h := hx.bind hf
  rwa [Nat.add_zero, Nat.add_zero] at h

theorem Moves.leaves {x : Action α} {f : α → Action β} (hx : Moves x pops 0)
    (hf : ∀ a, Moves (f a) 0 pushes) : Moves (x >>= f) pops pushes := by
  have h := hx.bind hf
  rwa [Nat.add_zero, Nat.zero_add] at h

theorem moves_pure (a : α) : Moves (pure a) 0 0 := by
  intro s b s' h
  cases h
  exact ⟨rfl, rfl⟩

theorem moves_fault {f : Fault} : Moves (fault f : Action α) pops pushes := by
  intro s b s' h
  cases h

theorem moves_look (f : State → Word) : Moves (look f) 0 0 := by
  intro s b s' h
  cases h
  exact ⟨rfl, rfl⟩

theorem moves_ite {c : Prop} [Decidable c] {x y : Action α} (hx : Moves x pops pushes)
    (hy : Moves y pops pushes) : Moves (if c then x else y) pops pushes := by
  split
  · exact hx
  · exact hy

theorem moves_check {c : Prop} [Decidable c] {f : Fault} {k : Unit → Action α}
    (hk : Moves (k ()) pops pushes) : Moves (if c then fault f >>= k else k ()) pops pushes := by
  intro s a s' h
  by_cases hc : c
  · rw [if_pos hc] at h
    cases h
  · rw [if_neg hc] at h
    exact hk s a s' h

end

theorem moves_push (w : Word) : Moves (push w) 0 1 := by
  intro s a s' h
  unfold push at h
  split at h
  · cases h
  · split at h
    · cases h
      exact ⟨Int64.add_zero _, rfl⟩
    · cases h

theorem moves_pop : Moves pop 1 0 := by
  intro s a s' h
  unfold pop at h
  split at h
  · cases h
  · simp only at h
    split at h
    · cases h
      exact ⟨(Int64.sub_add_cancel _ _).trans (Int64.add_zero _).symm, rfl⟩
    · cases h

theorem moves_fetch (a : Word) : Moves (fetch a) 0 0 := by
  intro s w s' h
  unfold fetch at h
  split at h
  · cases h
    exact ⟨rfl, rfl⟩
  · cases h

theorem moves_put (a w : Word) : Moves (put a w) 0 0 := by
  intro s u s' h
  unfold put at h
  split at h
  · cases h
    exact ⟨rfl, rfl⟩
  · cases h

theorem moves_checkAddress (a : Word) : Moves (checkAddress a) 0 0 := by
  intro s u s' h
  unfold checkAddress at h
  split at h
  · cases h
  · split at h
    · cases h
    · cases h
      exact ⟨rfl, rfl⟩

theorem moves_setHt (a : Word) : Moves (setHt a) 0 0 := by
  intro s u s' h
  cases h
  exact ⟨rfl, rfl⟩

theorem moves_write (bs : Bytes) : Moves (write bs) 0 0 := by
  intro s u s' h
  unfold write at h
  split at h
  · cases h
  · cases h
    exact ⟨rfl, rfl⟩

theorem moves_load (a : Word) : Moves (load a) 0 0 :=
  (moves_checkAddress a).still fun _ => moves_fetch a

theorem moves_store (a w : Word) : Moves (store a w) 0 0 :=
  (moves_checkAddress a).still fun _ => moves_put a w

theorem moves_clear (n : Nat) (a : Word) : Moves (clear n a) 0 0 := by
  induction n generalizing a with
  | zero => exact moves_pure ()
  | succ n ih => exact (moves_put a 0).still fun _ => ih (a + 1)

theorem moves_pushZeros (n : Nat) : Moves (pushZeros n) 0 n := by
  induction n with
  | zero => exact moves_pure ()
  | succ n ih =>
    have h : Moves (pushZeros (n + 1)) (0 + 0) (1 + n) := (moves_push 0).bind fun _ => ih
    rwa [Nat.add_comm 1 n] at h

theorem moves_pop2 : Moves pop2 2 0 := by
  have h : Moves pop2 (1 + 1) (0 + 0) :=
    moves_pop.bind fun _ => moves_pop.then fun _ => moves_pure _
  exact h

theorem moves_pop3 : Moves pop3 3 0 := by
  have h : Moves pop3 (1 + 2) (0 + 0) :=
    moves_pop.bind fun _ => moves_pop.bind fun _ => moves_pop.then fun _ => moves_pure _
  exact h

theorem moves_allocate (cls size : Word) : Moves (allocate cls size) 0 0 := by
  unfold allocate
  refine moves_check ((moves_look _).still fun ht => (moves_look _).still fun st => moves_check ?_)
  refine (moves_setHt _).still fun _ => (moves_put _ _).still fun _ =>
    (moves_put _ _).still fun _ => ?_
  exact (moves_clear _ _).still fun _ => moves_pure _

theorem moves_element (a i : Word) (array : Bool) : Moves (element a i array) 0 0 := by
  unfold element
  refine moves_check ((moves_look _).still fun ht => (moves_look _).still fun size =>
    moves_check ?_)
  cases array with
  | false => exact (moves_fetch _).still fun _ => moves_check (moves_pure _)
  | true =>
    simp only [if_true]
    exact (moves_fetch _).still fun _ =>
      moves_check ((moves_fetch _).still fun _ => moves_check (moves_pure _))

theorem moves_arrayLength (a : Word) : Moves (arrayLength a) 0 0 := by
  unfold arrayLength
  refine moves_check ((moves_look _).still fun ht => (moves_look _).still fun size =>
    moves_check ?_)
  exact (moves_fetch _).still fun _ => moves_check (moves_fetch _)

theorem moves_drop {d : Word} (hd : 0 ≤ d.toInt) : Moves (drop d) d.toInt.toNat 0 := by
  intro s u s' h
  unfold drop at h
  split at h
  · cases h
  · cases h
    rw [Word.ofNat_toNat hd]
    exact ⟨(Int64.sub_add_cancel _ _).trans (Int64.add_zero _).symm, rfl⟩

theorem moves_mapTop (f : Word → Word) : Moves (mapTop f) 1 1 :=
  moves_pop.leaves fun _ => moves_push _

theorem moves_binaryTop (p : Prim) : Moves (binaryTop p) 2 1 := by
  have hresult (x : Word × Word) : Moves (pushResult (binary p x.1 x.2)) 0 1 := by
    cases binary p x.1 x.2 with
    | ok v => exact moves_push v
    | error f => exact moves_fault
  exact moves_pop2.leaves hresult

theorem moves_primitive {p : Prim} (hp : p ∈ emitted) :
    Moves (primitive p) p.shift.pops p.shift.pushes := by
  cases p with
  | not | neg => exact moves_mapTop _
  | add => exact moves_binaryTop .add
  | sub => exact moves_binaryTop .sub
  | mult => exact moves_binaryTop .mult
  | div => exact moves_binaryTop .div
  | lt => exact moves_binaryTop .lt
  | le => exact moves_binaryTop .le
  | ge => exact moves_binaryTop .ge
  | gt => exact moves_binaryTop .gt
  | eq => exact moves_binaryTop .eq
  | ne => exact moves_binaryTop .ne
  | putintnl => exact moves_pop.then fun _ => moves_write _
  | newobj => exact moves_pop2.leaves fun _ => (moves_allocate _ _).still fun _ => moves_push _
  | newarr => exact moves_pop.leaves fun _ => (moves_allocate _ _).still fun _ => moves_push _
  | arraylen => exact moves_pop.leaves fun _ => (moves_arrayLength _).still fun _ => moves_push _
  | arrayref | fieldref =>
    exact moves_pop2.leaves fun _ => (moves_element _ _ _).still fun _ =>
      (moves_fetch _).still fun _ => moves_push _
  | arrayupd | fieldupd =>
    exact moves_pop3.then fun _ => (moves_element _ _ _).still fun _ => moves_put _ _
  | _ => exact absurd hp (by decide)

theorem execute_eq_ok {size : Nat} {i : Instr} {s s' : State} (h : execute size i s = .ok () s') :
    ∃ t u, effect size i s = .ok t u ∧ s' = { u with cp := t } := by
  obtain ⟨t, u, hu, hs'⟩ := EStateM.bind_eq_ok.mp h
  cases hs'
  exact ⟨t, u, hu, rfl⟩

/-- The table tells what the machine does. -/
theorem moves_execute {V : Word → Prop} {i : Instr} (hi : Emitted V i) {shift : Shift}
    (hshift : i.shift? = some shift) (hret : i.op ≠ Op.ret.number) (size : Nat) :
    Moves (execute size i) shift.pops shift.pushes := by
  have heffect : Moves (effect size i) shift.pops shift.pushes := by
    cases hi with
    | literal => cases hshift; exact (moves_push _).then fun _ => moves_look _
    | this =>
      cases hshift; exact (moves_look _).still fun _ => (moves_push _).then fun _ => moves_look _
    | load r d =>
      cases hshift
      exact (moves_look _).still fun _ => (moves_load _).still fun _ => (moves_push _).then fun _ =>
        moves_look _
    | store r d =>
      cases hshift
      exact moves_pop.then fun _ => (moves_look _).still fun _ => (moves_store _ _).then fun _ =>
        moves_look _
    | reserve d => cases hshift; exact (moves_pushZeros _).then fun _ => moves_look _
    | drop d =>
      obtain ⟨hd, heq⟩ := (Option.ite_none_right_eq_some ..).mp hshift
      cases heq
      exact (moves_drop hd).then fun _ => moves_look _
    | jump d => cases hshift; exact moves_look _
    | jumpIf n d =>
      cases hshift; exact moves_pop.then fun _ => moves_ite (moves_look _) (moves_look _)
    | call d | callOn d | halt => cases hshift
    | ret n d => exact absurd rfl hret
    | @prim p hp =>
      have hp' : (Instr.prim p).shift? = some p.shift := by cases p <;> rfl
      cases hshift.symm.trans hp'
      rw [effect_prim]
      exact (moves_primitive hp).then fun _ => moves_look _
  intro s u s' h
  obtain ⟨t, v, hv, rfl⟩ := execute_eq_ok h
  exact heffect s t v hv

theorem moves_pushAll (ws : List Word) : Moves (pushAll ws) 0 ws.length := by
  induction ws with
  | nil => exact moves_pure ()
  | cons w ws ih =>
    have h : Moves (pushAll (w :: ws)) (0 + 0) (1 + ws.length) := (moves_push w).bind fun _ => ih
    rwa [Nat.add_comm 1] at h

theorem popOnto_eq_ok {n : Nat} {ws vs : List Word} {s s' : State}
    (h : popOnto n ws s = .ok vs s') : vs.length = n + ws.length ∧ s'.lb = s.lb := by
  induction n generalizing ws s with
  | zero => cases h; exact ⟨(Nat.zero_add _).symm, rfl⟩
  | succ n ih =>
    obtain ⟨w, u, hu, hrest⟩ := EStateM.bind_eq_ok.mp h
    obtain ⟨hlength, hlb⟩ := ih hrest
    exact ⟨by rw [hlength, List.length_cons]; omega, hlb.trans (moves_pop s w u hu).2⟩

/-- A call leaves the link above the base of the new frame, which is where the stack ended, and
takes its object. -/
theorem call_eq_ok {target object w : Word} {s s' : State} (h : call target object s = .ok w s') :
    s'.lb = s.st ∧ s'.ob = object ∧ s'.st = s'.lb + Word.ofNat Frame.linkSize := by
  obtain ⟨base, _, hbase, h⟩ := EStateM.bind_eq_ok.mp h
  cases hbase
  obtain ⟨ob, _, hob, h⟩ := EStateM.bind_eq_ok.mp h
  cases hob
  obtain ⟨_, s₁, h₁, h⟩ := EStateM.bind_eq_ok.mp h
  obtain ⟨lb, _, hlb, h⟩ := EStateM.bind_eq_ok.mp h
  cases hlb
  obtain ⟨_, s₂, h₂, h⟩ := EStateM.bind_eq_ok.mp h
  obtain ⟨back, _, hback, h⟩ := EStateM.bind_eq_ok.mp h
  cases hback
  obtain ⟨_, s₃, h₃, h⟩ := EStateM.bind_eq_ok.mp h
  cases h
  refine ⟨rfl, rfl, ?_⟩
  have hfirst := (moves_push _ s () s₁ h₁).1
  have hsecond := (moves_push _ s₁ () s₂ h₂).1
  have hthird := (moves_push _ s₂ () s₃ h₃).1
  have hlink : Word.ofNat Frame.linkSize = Word.ofNat 1 + Word.ofNat 1 + Word.ofNat 1 := rfl
  have hzero : Word.ofNat 0 = 0 := rfl
  rw [hzero, Int64.add_zero] at hfirst hsecond hthird
  change s₃.st = s.st + Word.ofNat Frame.linkSize
  rw [hthird, hsecond, hfirst, hlink, Int64.add_assoc, Int64.add_assoc, Int64.add_assoc]

/-- A return drops the frame and the arguments below it, and leaves the results. -/
theorem leaveFrame_eq_ok {n d w : Word} {s s' : State} (h : leaveFrame n d s = .ok w s') :
    s'.st + d = s.lb + Word.ofNat n.toInt.toNat := by
  obtain ⟨results, s₁, hresults, h⟩ := EStateM.bind_eq_ok.mp h
  obtain ⟨hlength, hlb⟩ : results.length = n.toInt.toNat ∧ s₁.lb = s.lb := by
    by_cases hn : n < 0 ∨ maxResults < n
    · have hcrash : popMany n = fun s => .error .crash s := if_pos hn
      rw [hcrash] at hresults
      cases hresults
    · have hpop : popMany n = popOnto n.toInt.toNat [] := if_neg hn
      rw [hpop] at hresults
      exact popOnto_eq_ok hresults
  obtain ⟨base, _, hbase, h⟩ := EStateM.bind_eq_ok.mp h
  cases hbase
  obtain ⟨ob, s₂, -, h⟩ := EStateM.bind_eq_ok.mp h
  obtain ⟨lb, s₃, -, h⟩ := EStateM.bind_eq_ok.mp h
  obtain ⟨back, s₄, -, h⟩ := EStateM.bind_eq_ok.mp h
  obtain ⟨_, _, hset, h⟩ := EStateM.bind_eq_ok.mp h
  cases hset
  by_cases hbelow : s₁.lb - d < 0
  · rw [if_pos hbelow] at h
    cases h
  · rw [if_neg hbelow] at h
    obtain ⟨_, s₅, hpush, h⟩ := EStateM.bind_eq_ok.mp h
    cases h
    have hst : s₅.st + Word.ofNat 0 = s₁.lb - d + Word.ofNat results.length :=
      (moves_pushAll results _ () s₅ hpush).1
    have hback (a b c : Word) : a - b + c + b = a + c := by grind
    rw [show Word.ofNat 0 = 0 from rfl, Int64.add_zero, hlength, hlb] at hst
    change s₅.st + d = _
    rw [hst, hback]

/-- A call begins a frame with its link, above what the object leaves of the stack. -/
theorem execute_call {V : Word → Prop} {i : Instr} (hi : Emitted V i) (hcall : i.isCall = true)
    {size : Nat} {s s' : State} (h : execute size i s = .ok () s') :
    s'.st = s'.lb + Word.ofNat Frame.linkSize ∧
      s'.lb + Word.ofNat (if i.op = Op.calli.number then 1 else 0) = s.st := by
  obtain ⟨t, u, hu, rfl⟩ := execute_eq_ok h
  cases hi with
  | call d =>
    obtain ⟨target, _, htarget, hu⟩ := EStateM.bind_eq_ok.mp hu
    cases htarget
    obtain ⟨ob, _, hob, hu⟩ := EStateM.bind_eq_ok.mp hu
    cases hob
    obtain ⟨hlb, -, hst⟩ := call_eq_ok hu
    exact ⟨hst, (Int64.add_zero _).trans hlb⟩
  | callOn d =>
    obtain ⟨object, s₁, hobject, hu⟩ := EStateM.bind_eq_ok.mp hu
    obtain ⟨target, _, htarget, hu⟩ := EStateM.bind_eq_ok.mp hu
    cases htarget
    obtain ⟨hlb, -, hst⟩ := call_eq_ok hu
    have hpop := (moves_pop s object s₁ hobject).1
    refine ⟨hst, ?_⟩
    change u.lb + Word.ofNat 1 = s.st
    rw [hlb, hpop]
    exact Int64.add_zero _
  | @prim p _ => cases p <;> cases hcall
  | _ => cases hcall

end Machine

end MiniJava
