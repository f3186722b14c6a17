import MiniJava.Proofs.Simulation.State
/-!
Runs of the machine step by step, and what it means that a run follows an evaluation: it reaches the
state that the result describes, fails as the evaluation does, and goes on while the evaluation
does. A run that lacks memory, or that calls a method on the null reference, is followed no further.
-/
namespace MiniJava

open Generate

namespace Machine

/-- The top word of the stack, 0 if there is none. -/
def State.top (s : State) : Word :=
  match (s.st - 1).index? s.data.size with
  | some ⟨i, _⟩ => s.data[i]
  | none => 0

/-- A state with the addresses and kinds of the blocks created so far. -/
abbrev Config := State × List (Word × BlockKind)

/-- The block that the instruction at `a` has created in coming to a state. -/
def created (items : Annotated) (a : Nat) (s : State) : List (Word × BlockKind) :=
  match items[a]? with
  | some (.create kind, _) => [(s.top, kind)]
  | _ => []

/-- One instruction of a run. -/
inductive Steps (items : Annotated) (code : Code) : Config → Config → Prop
  | mk {s s' : State} {log : List (Word × BlockKind)} {a : Fin code.size} :
      s.cp.index? code.size = some a → (code.instr a).op ≠ Op.halt.number →
      execute code.size (code.instr a) s = .ok () s' →
      Steps items code (s, log) (s', log ++ created items a s')

/-- The next instruction calls a method on an object, which is the null reference. -/
def CallsNull (code : Code) (s : State) : Prop :=
  ∃ a, s.cp.index? code.size = some a ∧ (code.instr a).op = Op.calli.number ∧ s.top = 0

/-- The next instruction fails. -/
def Fails (code : Code) (s : State) (f : Fault) (out : Output) : Prop :=
  ∃ a s', s.cp.index? code.size = some a ∧ (code.instr a).op ≠ Op.halt.number ∧
    execute code.size (code.instr a) s = .error (.fault f) s' ∧ s'.output = out

theorem View.Shows.top {v : View} {s : State} (h : v.Shows s) : s.top = v.stack.getLastD 0 := by
  have hroom := h.room
  have hmem : memorySize = 65536 := rfl
  unfold State.top
  rcases List.eq_nil_or_concat v.stack with hnil | ⟨rest, w, hw⟩
  · have hst : s.st - 1 = -1 := by rw [h.st, hnil]; rfl
    rw [hst, hnil, (Word.index?_eq_none (by rw [h.size]; decide)).mpr (.inl (by decide))]
    rfl
  · rw [List.concat_eq_append] at hw
    have hlen : v.stack.length = rest.length + 1 := by simp [hw]
    have hst : s.st - 1 = Word.ofNat rest.length := by
      rw [h.st, hlen, Word.ofNat_add]
      exact Int64.add_sub_cancel _ _
    have hlt : rest.length < s.data.size := by
      rw [h.size]
      omega
    rw [hst, Word.index?_ofNat hlt (by omega)]
    exact (h.stack_getElem (w := w) hlt (by simp [hw])).trans (by simp [hw])

end Machine

namespace Semantics

/-- How the machine reports a fault. -/
def Fault.machine : Fault → Machine.Fault
  | nullPointer => .nullPointer
  | indexOutOfRange i size => .indexOutOfRange i size
  | divisionByZero => .divisionByZero
  | negativeSize n => .negativeSize n

end Semantics

namespace Simulation

open Machine Semantics

variable {p : Program} (H : Host p)

/-- A state that pictures some evaluation. -/
def Host.Good (c : Config) : Prop := ∃ σ v, v.Shows c.1 ∧ c.2 = σ.world.log ∧ H.Stands σ v

/-- A number of steps from good states. -/
inductive Host.Path : Nat → Config → Config → Prop
  | refl (c : Config) : Path 0 c c
  | step {n : Nat} {c₁ c₂ c₃ : Config} : H.Good c₁ → Steps H.items H.code c₁ c₂ → Path n c₂ c₃ →
      Path (n + 1) c₁ c₃

/-- A state from which evaluation is not followed. -/
structure Host.Escapes (c : Config) : Prop where
  good : H.Good c
  cause : CallsNull H.code c.1 ∨ ∃ f out, (f = .stackOverflow ∨ f = .heapExhausted) ∧
    Fails H.code c.1 f out

/-- From a state, the machine does what the result of an evaluation tells. If the fuel was too low
for a result, the machine makes at least `n` steps and prints what the evaluation has printed. -/
def Host.Meets {α : Type} (n : Nat) (c : Config)
    (Q : α → Store → View → Prop) : EStateM.Result Halt Store α → Prop
  | .ok a σ => ∃ k s v, H.Path k c (s, σ.world.log) ∧ v.Shows s ∧ Q a σ v
  | .error (.fault f) σ =>
    ∃ k c', H.Path k c c' ∧ H.Good c' ∧ Fails H.code c'.1 f.machine (H.output.append σ.output)
  | .error .outOfFuel σ => ∃ k c', n ≤ k ∧ H.Path k c c' ∧ c'.1.output = H.output.append σ.output
  | .error .stuck _ => False

/-- From every state that looks like `v`, the machine follows the evaluation of `x` in `σ`, or comes
to a state from which it is not followed. -/
def Host.Sim {α : Type} (n : Nat) (x : Eval α) (σ : Store) (v : View)
    (Q : α → Store → View → Prop) : Prop :=
  ∀ s, v.Shows s → (∃ k c, H.Path k (s, σ.world.log) c ∧ H.Escapes c) ∨
    H.Meets n (s, σ.world.log) Q (x σ)

variable {H}

theorem Host.Path.trans {m n : Nat} {c₁ c₂ c₃ : Config} (h₁ : H.Path m c₁ c₂)
    (h₂ : H.Path n c₂ c₃) : H.Path (m + n) c₁ c₃ := by
  induction h₁ with
  | refl c => rw [Nat.zero_add]; exact h₂
  | step hgood hstep _ ih => rw [Nat.add_right_comm]; exact .step hgood hstep (ih h₂)

section Meets

variable {α : Type} {m n k : Nat} {c c' : Config} {Q : α → Store → View → Prop}
  {r : EStateM.Result Halt Store α}

theorem Host.Meets.after (hpath : H.Path k c c') (h : H.Meets m c' Q r)
    (hn : n ≤ k + m) : H.Meets n c Q r := by
  match r with
  | .ok a σ =>
    obtain ⟨j, s, v, hj, hs, hQ⟩ := h
    exact ⟨_, s, v, hpath.trans hj, hs, hQ⟩
  | .error (.fault f) σ =>
    obtain ⟨j, c₂, hj, hc⟩ := h
    exact ⟨_, c₂, hpath.trans hj, hc⟩
  | .error .outOfFuel σ =>
    obtain ⟨j, c₂, hle, hj, hout⟩ := h
    exact ⟨_, c₂, by omega, hpath.trans hj, hout⟩

end Meets

namespace Host.Sim

variable {α β : Type} {m n : Nat} {x : Eval α} {σ : Store} {v : View} {Q : α → Store → View → Prop}

theorem of_eq {y : Eval α} (hx : x σ = y σ) (h : H.Sim n y σ v Q) : H.Sim n x σ v Q := by
  intro s hs
  rw [hx]
  exact h s hs

theorem of_ok {a : α} {σ' : Store} (hx : x σ = .ok a σ') (hlog : σ'.world.log = σ.world.log)
    (h : Q a σ' v) : H.Sim n x σ v Q := by
  intro s hs
  rw [hx]
  exact .inr ⟨0, s, v, hlog ▸ .refl _, hs, h⟩

theorem pure {a : α} (h : Q a σ v) : H.Sim n (pure a) σ v Q := of_ok rfl rfl h

theorem outOfFuel (hout : v.output = H.output.append σ.output) :
    H.Sim 0 (Semantics.outOfFuel : Eval α) σ v Q :=
  fun s hs => .inr ⟨0, (s, σ.world.log), Nat.le_refl 0, .refl _, hs.output.trans hout⟩

theorem weaken {Q' : α → Store → View → Prop} (h : H.Sim m x σ v Q') (hn : n ≤ m)
    (hQ : ∀ a σ' v', Q' a σ' v' → Q a σ' v') : H.Sim n x σ v Q := by
  intro s hs
  refine (h s hs).imp id fun h => ?_
  cases hx : x σ with
  | ok a σ' =>
    rw [hx] at h
    obtain ⟨k, s', v', hpath, hs', hq⟩ := h
    exact ⟨k, s', v', hpath, hs', hQ _ _ _ hq⟩
  | error e σ' =>
    rw [hx] at h
    match e, h with
    | .fault f, h => exact h
    | .outOfFuel, ⟨k, c, hk, hpath⟩ => exact ⟨k, c, by omega, hpath⟩

theorem result (h : H.Sim n x σ v Q) :
    H.Sim n x σ v (fun a σ' v' => Q a σ' v' ∧ x σ = .ok a σ') := by
  intro s hs
  refine (h s hs).imp id fun h => ?_
  cases hx : x σ with
  | ok a σ' =>
    rw [hx] at h
    obtain ⟨k, s', v', hpath, hs', hQ⟩ := h
    exact ⟨k, s', v', hpath, hs', hQ, rfl⟩
  | error e σ' =>
    rw [hx] at h
    match e, h with
    | .fault f, h => exact h
    | .outOfFuel, h => exact h

theorem bind {f : α → Eval β} {R : β → Store → View → Prop} (hx : H.Sim n x σ v Q)
    (hf : ∀ a σ' v', Q a σ' v' → H.Sim n (f a) σ' v' R) : H.Sim n (x >>= f) σ v R := by
  intro s hs
  rcases hx s hs with hescape | hmeets
  · exact .inl hescape
  · cases h : x σ with
    | ok a σ' =>
      rw [h] at hmeets
      obtain ⟨k, s', v', hpath, hs', hQ⟩ := hmeets
      rw [EStateM.bind_of_ok h]
      rcases hf a σ' v' hQ s' hs' with ⟨j, c, hj, hc⟩ | hafter
      · exact .inl ⟨_, c, hpath.trans hj, hc⟩
      · exact .inr (hafter.after hpath (by omega))
    | error e σ' =>
      rw [h] at hmeets
      rw [EStateM.bind_of_error h]
      match e, hmeets with
      | .fault f, hmeets => exact .inr hmeets
      | .outOfFuel, hmeets => exact .inr hmeets

theorem escape (hstands : H.Stands σ v)
    (h : ∀ s, v.Shows s → CallsNull H.code s) : H.Sim n x σ v Q :=
  fun s hs => .inl ⟨0, (s, σ.world.log), .refl _, ⟨σ, v, hs, rfl, hstands⟩, .inl (h s hs)⟩

end Host.Sim

/-- The block that an item has created in coming to a state that looks like `v`. -/
def logged (v : View) : Item → List (Word × BlockKind)
  | .create kind => [(v.stack.getLastD 0, kind)]
  | _ => []

/-- The faults with which an instruction may stop while `x` is evaluated. -/
def Host.MayFail {α : Type} (H : Host p) (x : Eval α) (σ : Store) (f : Machine.Fault)
    (out : Output) : Prop :=
  f = .stackOverflow ∨ f = .heapExhausted ∨
    ∃ g σ', x σ = .error (.fault g) σ' ∧ f = g.machine ∧ out = H.output.append σ'.output

/-- An instruction of the run is followed if what it does is a part of the evaluation, or none of
it. -/
theorem Host.Sim.step {α : Type} {m n : Nat} {x : Eval α} {σ : Store} {v : View}
    {Q : α → Store → View → Prop} {a : Nat} {item : Item} {scope : Option Scope} {instr : Instr}
    (hstands : H.Stands σ v) (hitem : H.items[a]? = some (item, scope))
    (hcp : v.cp = Word.ofNat a) (hlink : item.link H.address = .ok instr)
    (hhalt : instr.op ≠ Op.halt.number) (hn : n ≤ m + 1)
    (h : Does (execute H.code.size instr) v (fun _ v' => ∃ (y : Eval α) (σ' : Store), x σ = y σ' ∧
      σ'.world.log = σ.world.log ++ logged v' item ∧ H.Sim m y σ' v' Q) (H.MayFail x σ)) :
    H.Sim n x σ v Q := by
  intro s hs
  have hgood : H.Good (s, σ.world.log) := ⟨σ, v, hs, rfl, hstands⟩
  obtain ⟨instr', hlink', hcode⟩ := H.linked a _ hitem
  cases hlink.symm.trans hlink'
  obtain ⟨hlt, hget⟩ := Array.getElem?_eq_some_iff.mp hcode
  have hindex : s.cp.index? H.code.size = some ⟨a, hlt⟩ := by
    rw [hs.cp, hcp, Word.index?_ofNat hlt (Nat.lt_trans hlt H.small)]
  rw [← hget] at hhalt h
  rcases h s hs with ⟨u, s', v', he, hs', y, σ', hx, hlog, hsim⟩ | ⟨f, s', he, hF⟩
  · have hcreated : created H.items a s' = logged v' item := by
      rw [created, hitem, hs'.top]
      cases item <;> rfl
    have hstep : Steps H.items H.code (s, σ.world.log) (s', σ'.world.log) := by
      rw [hlog, ← hcreated]
      exact .mk hindex hhalt he
    have hpath : H.Path 1 (s, σ.world.log) (s', σ'.world.log) := .step hgood hstep (.refl _)
    rw [hx]
    rcases hsim s' hs' with ⟨k, c, hk, hc⟩ | hmeets
    · exact .inl ⟨_, c, hpath.trans hk, hc⟩
    · exact .inr (hmeets.after hpath (by omega))
  · have hfails : Machine.Fails H.code s f s'.output := ⟨⟨a, hlt⟩, s', hindex, hhalt, he, rfl⟩
    rcases hF with hover | hfull | ⟨g, σ', hx, rfl, hout⟩
    · exact .inl ⟨0, _, .refl _, hgood, .inr ⟨f, _, .inl hover, hfails⟩⟩
    · exact .inl ⟨0, _, .refl _, hgood, .inr ⟨f, _, .inr hfull, hfails⟩⟩
    · rw [hx]
      exact .inr ⟨0, _, .refl _, hgood, hout ▸ hfails⟩

end Simulation

end MiniJava
