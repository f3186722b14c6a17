import MiniJava.Proofs.Semantics.Encoding
/-!
Stores whose cells have their types, and what the elementary actions of the evaluator do to them:
none is stuck, and each leaves a typed store.
-/
namespace MiniJava

section Lists

variable {α β : Type} {R : α → β → Prop} {xs : List α} {ys : List β} {i : Nat} {x : α}

theorem forall₂_getElem? (h : List.Forall₂ R xs ys)
    (hx : xs[i]? = some x) : ∃ y, ys[i]? = some y ∧ R x y := by
  induction h generalizing i with
  | nil => cases hx
  | @cons a b xs ys hab hrest ih =>
    cases i with
    | zero => cases hx; exact ⟨b, rfl, hab⟩
    | succ i => exact ih hx

theorem forall₂_set {y : β} (h : List.Forall₂ R xs ys) (hx : xs[i]? = some x) (hy : R x y) :
    List.Forall₂ R xs (ys.set i y) := by
  induction h generalizing i with
  | nil => cases hx
  | cons hab hrest ih =>
    cases i with
    | zero => cases hx; exact .cons hy hrest
    | succ i => exact .cons hab (ih hx)

end Lists

namespace Semantics

/-- The type of a cell of a block. -/
def cellTy? (classes : List ClassHead) : BlockKind → Nat → Option Ty
  | .object name, i => do (← ((← classes.find? (·.name == name)).fieldsOf false)[i]?).type.ty
  | .array elem, _ => some elem

/-- A block whose cells have their types, and all of them if it is an object. -/
structure Block.Typed (classes : List ClassHead) (W : World) (b : Block) : Prop where
  cells : ∀ i v, b.cells[i]? = some v → ∃ t, cellTy? classes b.kind i = some t ∧ W.Has t v
  count : ∀ name, b.kind = .object name → fieldCount? classes name = some b.cells.length

/-- A store whose static fields and blocks have their types. -/
structure Store.Typed (classes : List ClassHead) (σ : Store) : Prop where
  statics : List.Forall₂ (fun x v => σ.world.Has x.2.type.ty v) (staticFields classes) σ.statics
  blocks : ∀ b ∈ σ.heap, b.Typed classes σ.world

section

variable {classes : List ClassHead} {σ : Store} {v : Val} {t : Ty}

theorem deref_loc {l : Nat} {b : Block}
    (h : σ.heap[l]? = some b) : deref (.loc l) σ = .ok (l, b) σ := by
  simp [deref, h]

theorem World.Has.object {c : String} (h : σ.world.Has (.cls c) v) :
    v = .zero ∨ ∃ l b, v = .loc l ∧ σ.heap[l]? = some b ∧ b.kind = .object c := by
  rcases h with rfl | ⟨l, n, rfl, hl⟩
  · exact .inl rfl
  · rw [Store.world, List.getElem?_map, Option.map_eq_some_iff] at hl
    obtain ⟨b, hb, hshape⟩ := hl
    exact .inr ⟨l, b, rfl, hb, congrArg Prod.fst hshape⟩

theorem World.Has.array (h : σ.world.Has (.array t) v) :
    v = .zero ∨ ∃ l b, v = .loc l ∧ σ.heap[l]? = some b ∧ b.kind = .array t := by
  rcases h with rfl | ⟨l, n, rfl, hl⟩
  · exact .inl rfl
  · rw [Store.world, List.getElem?_map, Option.map_eq_some_iff] at hl
    obtain ⟨b, hb, hshape⟩ := hl
    exact .inr ⟨l, b, rfl, hb, congrArg Prod.fst hshape⟩

theorem Block.Typed.exists_cell {W : World} {b : Block} {name : String} {i : Nat}
    (hb : b.Typed classes W) (hkind : b.kind = .object name)
    (ht : cellTy? classes b.kind i = some t) : ∃ v, b.cells[i]? = some v ∧ W.Has t v := by
  have hlt : i < b.cells.length := by
    have hcount := hb.count name hkind
    rw [fieldCount?, Option.map_eq_some_iff] at hcount
    obtain ⟨c, hc, hlen⟩ := hcount
    rw [hkind] at ht
    simp only [cellTy?, hc, Option.bind_eq_bind, Option.bind_some] at ht
    rw [Option.bind_eq_some_iff] at ht
    obtain ⟨f, hf, -⟩ := ht
    exact hlen ▸ (List.getElem?_eq_some_iff.mp hf).1
  obtain ⟨t', ht', hv⟩ := hb.cells i _ (List.getElem?_eq_getElem hlt)
  rw [ht] at ht'
  cases ht'
  exact ⟨_, List.getElem?_eq_getElem hlt, hv⟩

/-- The store after a cell has been written. -/
def Store.setCell (σ : Store) (l i : Nat) (v : Val) : Store :=
  { σ with heap := σ.heap.modify l fun b => { b with cells := b.cells.set i v } }

/-- The store after a block has been created. -/
def Store.create (σ : Store) (kind : BlockKind) (n : Nat) : Store :=
  { σ with heap := σ.heap ++ [⟨kind, List.replicate n .zero⟩] }

@[simp] theorem Store.world_setCell (l i : Nat) (v : Val) : (σ.setCell l i v).world = σ.world :=
  map_shape_modify fun b => by simp [Block.shape]

theorem Store.world_create (kind : BlockKind) (n : Nat) :
    (σ.create kind n).world = σ.world ++ [(kind, n)] := by
  simp [Store.world, Store.create, Block.shape]

theorem Store.world_prefix_create (kind : BlockKind)
    (n : Nat) : σ.world <+: (σ.create kind n).world := by
  rw [Store.world_create]
  exact List.prefix_append _ _

section Access

variable {l i : Nat} {b : Block} {w : Word} (hb : σ.heap[l]? = some b)

include hb

theorem readField_loc {u : Val} (hu : b.cells[i]? = some u) : readField (.loc l) i σ = .ok u σ := by
  refine (EStateM.bind_of_ok (deref_loc hb)).trans ?_
  change known b.cells[i]? σ = _
  rw [hu]
  rfl

theorem writeField_loc : writeField (.loc l) i v σ = .ok () (σ.setCell l i v) :=
  EStateM.bind_of_ok (deref_loc hb)

theorem readElement_loc {j : Fin b.cells.length} (hj : w.index? b.cells.length = some j) :
    readElement (.loc l) w σ = .ok (b.cells.get j) σ := by
  refine (EStateM.bind_of_ok (deref_loc hb)).trans (EStateM.bind_of_ok ?_)
  simp only [checkIndex, hj]
  rfl

theorem readElement_outside (hj : w.index? b.cells.length = none) :
    readElement (.loc l) w σ = .error (.fault (.indexOutOfRange w (Word.ofNat b.cells.length)))
      σ := by
  refine (EStateM.bind_of_ok (deref_loc hb)).trans (EStateM.bind_of_error ?_)
  simp only [checkIndex, hj]
  rfl

theorem writeElement_loc {j : Fin b.cells.length} (hj : w.index? b.cells.length = some j) :
    writeElement (.loc l) w v σ = .ok () (σ.setCell l j v) := by
  refine (EStateM.bind_of_ok (deref_loc hb)).trans (EStateM.bind_of_ok ?_)
  simp only [checkIndex, hj]
  rfl

theorem writeElement_outside (hj : w.index? b.cells.length = none) :
    writeElement (.loc l) w v σ = .error (.fault (.indexOutOfRange w (Word.ofNat b.cells.length)))
      σ := by
  refine (EStateM.bind_of_ok (deref_loc hb)).trans (EStateM.bind_of_error ?_)
  simp only [checkIndex, hj]
  rfl

theorem arrayLength_loc : arrayLength (.loc l) σ = .ok (.word (Word.ofNat b.cells.length)) σ :=
  EStateM.bind_of_ok (deref_loc hb)

end Access

namespace Store.Typed

theorem count (h : σ.Typed classes) : σ.statics.length = (staticFields classes).length :=
  h.statics.length_eq.symm

theorem writeStatic (h : σ.Typed classes) {i : Nat} {x : String × Field}
    (hi : (staticFields classes)[i]? = some x) (hv : σ.world.Has x.2.type.ty v) :
    Store.Typed classes { σ with statics := σ.statics.set i v } :=
  ⟨forall₂_set h.statics hi hv, h.blocks⟩

theorem setCell (h : σ.Typed classes) {l i : Nat} {b : Block} (hb : σ.heap[l]? = some b)
    (ht : cellTy? classes b.kind i = some t) (hv : σ.world.Has t v) :
    (σ.setCell l i v).Typed classes := by
  refine ⟨?_, fun b' hb' => ?_⟩
  · rw [world_setCell]
    exact h.statics
  · rw [world_setCell]
    obtain ⟨j, hj⟩ := List.mem_iff_getElem?.mp hb'
    simp only [Store.setCell, List.getElem?_modify] at hj
    obtain ⟨old, hold, hnew⟩ := Option.map_eq_some_iff.mp hj
    have htyped := h.blocks old (List.mem_of_getElem? hold)
    split at hnew
    · -- The changed block: its new cell has the type of the old one.
      rename_i hjl
      subst hjl hnew
      rw [hb] at hold
      cases hold
      refine ⟨fun k w hk => ?_, fun name hname => by simpa using htyped.count name hname⟩
      rw [List.getElem?_set] at hk
      split at hk
      · rename_i hik
        subst hik
        split at hk
        · cases hk; exact ⟨t, ht, hv⟩
        · cases hk
      · exact htyped.cells k w hk
    · subst hnew
      exact htyped

theorem create (h : σ.Typed classes) {kind : BlockKind} {n : Nat}
    (hcells : ∀ i < n, ∃ t, cellTy? classes kind i = some t)
    (hcount : ∀ name, kind = .object name → fieldCount? classes name = some n) :
    (σ.create kind n).Typed classes := by
  have hgrow := σ.world_prefix_create kind n
  refine ⟨h.statics.imp fun _ _ hv => hv.mono hgrow, fun b hb => ?_⟩
  rcases List.mem_append.mp hb with hb | hb
  · have hold := h.blocks b hb
    refine ⟨fun i v hi => ?_, hold.count⟩
    obtain ⟨t, ht, hv⟩ := hold.cells i v hi
    exact ⟨t, ht, hv.mono hgrow⟩
  · cases List.mem_singleton.mp hb
    refine ⟨fun i v hi => ?_, by simpa using hcount⟩
    obtain ⟨hlt, rfl⟩ := List.getElem?_eq_some_iff.mp hi
    obtain ⟨t, ht⟩ := hcells i (by simpa using hlt)
    exact ⟨t, ht, by simpa using World.has_zero t⟩

end Store.Typed

end

end Semantics

end MiniJava
