import MiniJava.Proofs.Simulation.Primitives
/-!
What the machine does with objects and arrays: their creation, and reading and writing their cells.
-/
namespace MiniJava

namespace Word

theorem index?_congr {w : Word} {m n : Nat} (h : m = n) :
    w.index? m = (w.index? n).map (Fin.cast h.symm) := by
  subst h
  simp

theorem index?_val {w : Word} {n : Nat} {j : Fin n} {i : Nat} (hi : i < 2 ^ 63)
    (h : w.index? n = some j) (hw : w = ofNat i) : (j : Nat) = i := by
  unfold index? at h
  split at h
  · cases h
    simp [hw, toInt_ofNat hi]
  · cases h

end Word

namespace Simulation

open Generate Machine Semantics

variable {p : Program} {H : Host p} {A : Activation} {σ : Store} {env : Env} {vars : List Local}

theorem exists_block {l : Nat} {b : Block} (h : σ.heap[l]? = some b) :
    ∃ newer older,
      σ.world.word (.loc l) = Word.ofNat (blockAddress (b.cells.map σ.world.word) older) ∧
      heapImage σ.world σ.heap = newer ++ b.kind.classWord ::
        Word.ofNat (b.cells.map σ.world.word).length :: (b.cells.map σ.world.word ++ older) ∧
      ∀ i v, heapImage σ.world (σ.setCell l i v).heap = newer ++ b.kind.classWord ::
        Word.ofNat (b.cells.map σ.world.word).length ::
      ((b.cells.map σ.world.word).set i (σ.world.word v) ++ older) := by
  obtain ⟨newer, older, haddress, himage, hmodify⟩ := heapImage_block (W := σ.world) h
  refine ⟨newer, older, congrArg Word.ofNat haddress, by rw [himage, List.length_map],
    fun i v => ?_⟩
  rw [Store.setCell, hmodify _ (by simp [Block.shape]), List.length_map, ← List.map_set]

theorem cells_small {newer cells older heap : List Word} {c w : Word}
    (hheap : heap = newer ++ c :: w :: (cells ++ older)) {stack : List Word}
    (hroom : stack.length + heap.length ≤ memorySize) : cells.length < 2 ^ 63 := by
  have hlen : heap.length = newer.length + (cells.length + older.length + 2) := by simp [hheap]
  have hmem : memorySize = 65536 := rfl
  omega

section

variable {n pc i : Nat} {ops : List Word} {t : Ty} {a v : Val} {c : String} {w : Word}

theorem stack_two {a b : Word} : (H.view A σ env vars pc (ops ++ [a] ++ [b])).stack =
    (A.frame σ env vars ++ ops) ++ [a, b] := by
  simp [Host.view]

theorem stack_three {a b c : Word} : (H.view A σ env vars pc (ops ++ [a] ++ [b] ++ [c])).stack =
    (A.frame σ env vars ++ ops) ++ [a, b, c] := by
  simp [Host.view]

theorem Host.Sim.readField (hA : A.Valid H σ env vars)
    (hcode : H.Carries A pc (within vars [.prim .fieldref])) (hv : σ.world.Has (.cls c) v)
    (ht : cellTy? p.heads (.object c) i = some t) :
    H.Sim n (Semantics.readField v i) σ
      (H.view A σ env vars pc (ops ++ [σ.world.word v] ++ [Word.ofNat i]))
      (H.Pushes A σ env vars (pc + 1) ops t) := by
  refine .prim hA hcode (.bind (does_pop2 stack_two ?_))
  rcases hv.object with rfl | ⟨l, b, rfl, hb, hkind⟩
  · exact .bind (does_element_null (.inr (.inr ⟨_, σ, rfl, rfl, rfl⟩)))
  · obtain ⟨newer, older, haddress, hheap, -⟩ := exists_block hb
    have hblock := hA.store.blocks b (List.mem_of_getElem? hb)
    obtain ⟨u, hu, hty⟩ := hblock.exists_cell hkind (hkind ▸ ht)
    have hi := (List.getElem?_eq_some_iff.mp hu).1
    refine .of_room fun hroom => ?_
    have hsmall : i < 2 ^ 63 := by
      have := cells_small hheap hroom
      rw [List.length_map] at this
      omega
    refine does_pushCell hheap haddress nofun (fun _ => .inl rfl) (fun j hj => ?_) (fun hj => ?_)
    · have hji := Word.index?_val hsmall hj rfl
      have hcell : (b.cells.map σ.world.word).get j = σ.world.word u := by
        obtain ⟨j, hlt⟩ := j
        simp only at hji
        subst hji
        simp [(List.getElem?_eq_some_iff.mp hu).2]
      refine pushes_result hA (readField_loc hb hu) hty ?_
      rw [hcell]
      simp [Host.view, Word.ofNat_add_one]
    · rw [Word.index?_ofNat (by simpa using hi) hsmall] at hj
      cases hj

theorem leaves_setCell {l i : Nat} {b : Block} (hA : A.Valid H σ env vars)
    (hb : σ.heap[l]? = some b) (ht : cellTy? p.heads b.kind i = some t) (ha : σ.world.Has t a)
    {v : View}
    (hv : v =
      { H.view A σ env vars (pc + 1) ops with heap := heapImage σ.world (σ.setCell l i a).heap }) :
    H.Leaves A σ env vars (pc + 1) ops (σ.setCell l i a) v := by
  have hworld := σ.world_setCell l i a
  refine ⟨hworld ▸ List.prefix_refl _,
    hA.of_store (hworld ▸ List.prefix_refl _) rfl (hA.store.setCell hb ht ha), ?_⟩
  rw [hv, Host.view, Host.view, Activation.frame, Activation.frame, hworld]
  rfl

theorem Host.Sim.writeField (hA : A.Valid H σ env vars)
    (hcode : H.Carries A pc (within vars [.prim .fieldupd])) (hv : σ.world.Has (.cls c) v)
    (ht : cellTy? p.heads (.object c) i = some t) (ha : σ.world.Has t a) :
    H.Sim n (Semantics.writeField v i a) σ
      (H.view A σ env vars pc (ops ++ [σ.world.word v] ++ [Word.ofNat i] ++ [σ.world.word a]))
      (fun _ => H.Leaves A σ env vars (pc + 1) ops) := by
  refine .prim hA hcode (.bind (does_pop3 stack_three ?_))
  rcases hv.object with rfl | ⟨l, b, rfl, hb, hkind⟩
  · exact .bind (does_element_null (.inr (.inr ⟨_, σ, rfl, rfl, rfl⟩)))
  · obtain ⟨newer, older, haddress, hheap, hset⟩ := exists_block hb
    have hblock := hA.store.blocks b (List.mem_of_getElem? hb)
    obtain ⟨u, hu, -⟩ := hblock.exists_cell hkind (hkind ▸ ht)
    have hi := (List.getElem?_eq_some_iff.mp hu).1
    refine .of_room fun hroom => ?_
    have hsmall : i < 2 ^ 63 := by
      have := cells_small hheap hroom
      rw [List.length_map] at this
      omega
    refine does_writeCell hheap haddress nofun (fun j hj => ?_) (fun hj => ?_)
    · rw [Word.index?_val hsmall hj rfl, ← hset]
      refine ⟨Pure.pure (), _, writeField_loc hb, σ.world_setCell l i a,
        .pure (leaves_setCell hA hb (hkind ▸ ht) ha ?_)⟩
      simp [Host.view, Word.ofNat_add_one]
    · rw [Word.index?_ofNat (by simpa using hi) hsmall] at hj
      cases hj

theorem Host.Sim.readElement (hA : A.Valid H σ env vars)
    (hcode : H.Carries A pc (within vars [.prim .arrayref])) (hv : σ.world.Has (.array t) v) :
    H.Sim n (Semantics.readElement v w) σ (H.view A σ env vars pc (ops ++ [σ.world.word v] ++ [w]))
      (H.Pushes A σ env vars (pc + 1) ops t) := by
  refine .prim hA hcode (.bind (does_pop2 stack_two ?_))
  rcases hv.array with rfl | ⟨l, b, rfl, hb, hkind⟩
  · exact .bind (does_element_null (.inr (.inr ⟨_, σ, rfl, rfl, rfl⟩)))
  · obtain ⟨newer, older, haddress, hheap, -⟩ := exists_block hb
    have hclass : true = true → b.kind.classWord = arrayClass := fun _ => by rw [hkind]; rfl
    refine does_pushCell hheap haddress hclass (fun _ => .inl rfl) (fun j hj => ?_) (fun hj => ?_)
    · rw [Word.index?_congr (List.length_map _)] at hj
      obtain ⟨k, hk, rfl⟩ := Option.map_eq_some_iff.mp hj
      have hcell : b.cells[(k : Nat)]? = some (b.cells.get k) := by simp
      obtain ⟨t', ht', hty⟩ := (hA.store.blocks b (List.mem_of_getElem? hb)).cells k _ hcell
      rw [hkind] at ht'
      cases ht'
      refine pushes_result hA (readElement_loc hb hk) hty ?_
      simp [Host.view, Word.ofNat_add_one]
    · rw [Word.index?_congr (List.length_map _), Option.map_eq_none_iff] at hj
      exact .inr (.inr ⟨_, σ, readElement_outside hb hj, by simp [Fault.machine], rfl⟩)

theorem Host.Sim.writeElement (hA : A.Valid H σ env vars)
    (hcode : H.Carries A pc (within vars [.prim .arrayupd])) (hv : σ.world.Has (.array t) v)
    (ha : σ.world.Has t a) :
    H.Sim n (Semantics.writeElement v w a) σ
      (H.view A σ env vars pc (ops ++ [σ.world.word v] ++ [w] ++ [σ.world.word a]))
      (fun _ => H.Leaves A σ env vars (pc + 1) ops) := by
  refine .prim hA hcode (.bind (does_pop3 stack_three ?_))
  rcases hv.array with rfl | ⟨l, b, rfl, hb, hkind⟩
  · exact .bind (does_element_null (.inr (.inr ⟨_, σ, rfl, rfl, rfl⟩)))
  · obtain ⟨newer, older, haddress, hheap, hset⟩ := exists_block hb
    have hclass : true = true → b.kind.classWord = arrayClass := fun _ => by rw [hkind]; rfl
    refine does_writeCell hheap haddress hclass (fun j hj => ?_) (fun hj => ?_)
    · rw [Word.index?_congr (List.length_map _)] at hj
      obtain ⟨k, hk, rfl⟩ := Option.map_eq_some_iff.mp hj
      rw [Fin.val_cast, ← hset]
      refine ⟨Pure.pure (), _, writeElement_loc hb hk, σ.world_setCell l k a,
        .pure (leaves_setCell hA hb (by rw [hkind]; rfl) ha ?_)⟩
      simp [Host.view, Word.ofNat_add_one]
    · rw [Word.index?_congr (List.length_map _), Option.map_eq_none_iff] at hj
      exact .inr (.inr ⟨_, σ, writeElement_outside hb hj, by simp [Fault.machine], rfl⟩)

theorem Host.Sim.arrayLength (hA : A.Valid H σ env vars)
    (hcode : H.Carries A pc (within vars [.prim .arraylen])) (hv : σ.world.Has (.array t) v) :
    H.Sim n (Semantics.arrayLength v) σ (H.view A σ env vars pc (ops ++ [σ.world.word v]))
      (H.Pushes A σ env vars (pc + 1) ops .int) := by
  have hstack : (H.view A σ env vars pc (ops ++ [σ.world.word v])).stack =
      (A.frame σ env vars ++ ops) ++ [σ.world.word v] := by
    simp [Host.view]
  refine .prim hA hcode (.bind (does_pop hstack (.bind ?_)))
  rcases hv.array with rfl | ⟨l, b, rfl, hb, hkind⟩
  · exact does_arrayLength_null (.inr (.inr ⟨_, σ, rfl, rfl, rfl⟩))
  · obtain ⟨newer, older, haddress, hheap, -⟩ := exists_block hb
    rw [hkind] at hheap
    refine does_arrayLength hheap haddress (does_push ?_ fun _ => .inl rfl)
    refine pushes_result (t := .int) hA (arrayLength_loc hb) ⟨_, rfl⟩ ?_
    simp [Host.view, Word.ofNat_add_one, World.word]

/-- The current object is a block of its class, and the object base is its address. -/
theorem Activation.Valid.exists_self (hA : A.Valid H σ env vars)
    (hstatic : A.method.isStatic = false) :
    ∃ l b, env.self = .loc l ∧ σ.heap[l]? = some b ∧ b.kind = .object A.owner ∧
      A.object = σ.world.word (.loc l) := by
  obtain ⟨hobject, hne, hself⟩ := hA.self hstatic
  obtain ⟨l, b, hl, hb, hkind⟩ := hself.object.resolve_left hne
  exact ⟨l, b, hl, hb, hkind, hl ▸ hobject⟩

theorem Host.Sim.readOwn (hA : A.Valid H σ env vars) (hstatic : A.method.isStatic = false)
    (hcode : H.Carries A pc (within vars [.loadField ⟨i, false⟩]))
    (ht : cellTy? p.heads (.object A.owner) i = some t) :
    H.Sim n (Semantics.readField env.self i) σ (H.view A σ env vars pc ops)
      (H.Pushes A σ env vars (pc + 1) ops t) := by
  obtain ⟨l, b, hself, hb, hkind, hobject⟩ := hA.exists_self hstatic
  obtain ⟨newer, older, haddress, hheap, -⟩ := exists_block hb
  obtain ⟨u, hu, hty⟩ :=
    (hA.store.blocks b (List.mem_of_getElem? hb)).exists_cell hkind (hkind ▸ ht)
  refine .atItem hA hcode rfl (Instr.of_op_ne (by decide)) (Nat.le_succ n) (.of_room fun hroom =>
    ?_)
  obtain ⟨-, hbase, -⟩ := blockAddress_facts (v := H.view A σ env vars pc ops) hheap haddress hroom
  have hi : (H.view A σ env vars pc ops).base .ob + Word.ofNat i =
      Word.ofNat ((H.view A σ env vars pc ops).heapTop + (newer.length + 2 + i)) := by
    rw [View.base, show (H.view A σ env vars pc ops).ob = A.object from rfl, hobject, haddress,
      ← Word.ofNat_add, ← hbase]
    congr 1
    omega
  have hcell : (H.view A σ env vars pc ops).heap[newer.length + 2 + i]? =
      some (σ.world.word u) := by
    have hlt := (List.getElem?_eq_some_iff.mp hu).1
    rw [show (H.view A σ env vars pc ops).heap = _ from hheap, Nat.add_assoc,
      List.getElem?_append_right (Nat.le_add_right _ _), Nat.add_sub_cancel_left, Nat.add_comm 2 i,
      List.getElem?_cons_succ, List.getElem?_cons_succ,
      List.getElem?_append_left (by simpa using hlt),
      List.getElem?_map, hu]
    rfl
  refine does_loadHeap (by simp [Item.fieldBase]) hi hcell (fun _ => .inl rfl) ?_
  refine ⟨Pure.pure u, σ, hself ▸ readField_loc hb hu, (List.append_nil _).symm, ?_⟩
  rw [← view_push]
  exact .pure ⟨⟨List.prefix_refl _, hA, rfl⟩, hty⟩

theorem Host.Sim.writeOwn (hA : A.Valid H σ env vars) (hstatic : A.method.isStatic = false)
    (hcode : H.Carries A pc (within vars [.storeField ⟨i, false⟩]))
    (ht : cellTy? p.heads (.object A.owner) i = some t) (ha : σ.world.Has t a) :
    H.Sim n (Semantics.writeField env.self i a) σ (H.view A σ env vars pc (ops ++ [σ.world.word a]))
      (fun _ => H.Leaves A σ env vars (pc + 1) ops) := by
  obtain ⟨l, b, hself, hb, hkind, hobject⟩ := hA.exists_self hstatic
  obtain ⟨newer, older, haddress, hheap, hset⟩ := exists_block hb
  obtain ⟨u, hu, -⟩ := (hA.store.blocks b (List.mem_of_getElem? hb)).exists_cell hkind (hkind ▸ ht)
  have hlt := (List.getElem?_eq_some_iff.mp hu).1
  have hstack : (H.view A σ env vars pc (ops ++ [σ.world.word a])).stack =
      (A.frame σ env vars ++ ops) ++ [σ.world.word a] := by
    simp [Host.view]
  refine .atItem hA hcode rfl (Instr.of_op_ne (by decide)) (Nat.le_succ n) (.of_room fun hroom =>
    ?_)
  obtain ⟨-, hbase, -⟩ :=
    blockAddress_facts (v := H.view A σ env vars pc (ops ++ [σ.world.word a])) hheap haddress hroom
  have hi : (H.view A σ env vars pc (ops ++ [σ.world.word a])).base .ob + Word.ofNat i =
      Word.ofNat ((H.view A σ env vars pc (ops ++ [σ.world.word a])).heapTop +
        (newer.length + 2 + i)) := by
    rw [View.base, show (H.view A σ env vars pc (ops ++ [σ.world.word a])).ob = A.object from rfl,
      hobject, haddress, ← Word.ofNat_add, ← hbase]
    congr 1
    omega
  have hinside : newer.length + 2 + i < (heapImage σ.world σ.heap).length := by
    rw [hheap]
    simp
    omega
  have hwritten : (heapImage σ.world σ.heap).set (newer.length + 2 + i) (σ.world.word a) =
      heapImage σ.world (σ.setCell l i a).heap := by
    rw [hset, hheap, Nat.add_assoc, List.set_append, if_neg (by omega), Nat.add_sub_cancel_left,
      Nat.add_comm 2 i, List.set_cons_succ, List.set_cons_succ, List.set_append,
      if_pos (by simpa using hlt)]
  refine does_storeHeap (by simp [Item.fieldBase]) hstack hi hinside ?_
  refine ⟨Pure.pure (), _, hself ▸ writeField_loc hb, ?_,
    .pure (leaves_setCell hA hb (hkind ▸ ht) ha ?_)⟩
  · rw [σ.world_setCell]
    exact (List.append_nil _).symm
  · rw [show (H.view A σ env vars pc (ops ++ [σ.world.word a])).heap =
      heapImage σ.world σ.heap from rfl, hwritten]
    simp [Host.view, Word.ofNat_add_one]

end

section Creation

variable {n pc k : Nat} {ops : List Word} {kind : BlockKind} {classes : List ClassHead}

theorem heapImage_create (kind : BlockKind) (k : Nat) (h : ∀ b ∈ σ.heap, b.Typed classes σ.world) :
    heapImage (σ.create kind k).world (σ.create kind k).heap =
      kind.classWord :: Word.ofNat k :: (List.replicate k 0 ++ heapImage σ.world σ.heap) := by
  rw [show (σ.create kind k).heap = σ.heap ++ [⟨kind, List.replicate k .zero⟩] from rfl,
    heapImage_append, heapImage_grows (σ.world_prefix_create kind k) h]
  simp [heapImage, Block.image]

theorem word_create : (σ.create kind k).world.word (.loc σ.heap.length) =
    Word.ofNat (memorySize - (heapImage σ.world σ.heap).length - k) := by
  have htake : List.take (σ.heap.length + 1) (σ.create kind k).world = σ.world ++ [(kind, k)] := by
    rw [Store.world_create]
    exact List.take_of_length_le (by simp [Store.world])
  rw [World.word, World.address, htake, World.footprint_append, length_heapImage]
  simp only [World.footprint, List.map_cons, List.map_nil, List.sum_cons, List.sum_nil, Store.world]
  congr 1
  omega

theorem log_create : (σ.create kind k).world.log =
    σ.world.log ++ [((σ.create kind k).world.word (.loc σ.heap.length), kind)] := by
  rw [Store.world_create, World.log_append]
  simp [World.word, Store.world]

/-- The type of references to blocks of a kind. -/
def refTy : BlockKind → Ty
  | .object c => .cls c
  | .array t => .array t

theorem has_create : (σ.create kind k).world.Has (refTy kind) (.loc σ.heap.length) := by
  have hget : (σ.create kind k).world[σ.heap.length]? = some (kind, k) := by
    rw [Store.world_create, show σ.heap.length = σ.world.length by simp [Store.world]]
    exact List.getElem?_concat_length
  cases kind with
  | object c => exact .inr ⟨_, k, rfl, hget⟩
  | array t => exact .inr ⟨_, k, rfl, hget⟩

theorem does_createBlock (kind : BlockKind) {x : Eval Val} {size : Word} (hA : A.Valid H σ env vars)
    (hcells : ∀ i < size.toInt.toNat, ∃ t, cellTy? p.heads kind i = some t)
    (hcount : ∀ name, kind = .object name → fieldCount? p.heads name = some size.toInt.toNat)
    (hneg : size.toInt < 0 → x σ = .error (.fault (.negativeSize size)) σ)
    (hx : 0 ≤ size.toInt → x σ = .ok (.loc σ.heap.length) (σ.create kind size.toInt.toNat)) :
    Does (do push (← Machine.allocate kind.classWord size)) (H.view A σ env vars pc ops)
      (fun _ v' => ∃ (y : Eval Val) (σ' : Store), x σ = y σ' ∧
        σ'.world.log = σ.world.log ++ logged { v' with cp := v'.cp + 1 } (.create kind) ∧
        H.Sim n y σ' { v' with cp := v'.cp + 1 } (H.Pushes A σ env vars (pc + 1) ops (refTy kind)))
      (H.MayFail x σ) := by
  have hrest : A.frame σ env vars ++ ops ≠ [] := by simp [Activation.frame]
  refine does_create hrest (fun h => .inr (.inr ⟨_, σ, hneg h, rfl, rfl⟩))
    (fun _ => .inr (.inl rfl)) ?_
  intro k hsize hint
  have hk : size.toInt.toNat = k := by omega
  rw [hk] at hcells hcount hx
  have hstore := hA.store.create hcells hcount
  have hgrows := σ.world_prefix_create kind k
  have hword : Word.ofNat ((H.view A σ env vars pc ops).heapTop - k) =
      (σ.create kind k).world.word (.loc σ.heap.length) := word_create.symm
  refine ⟨Pure.pure (.loc σ.heap.length), σ.create kind k, hx (by omega), ?_,
    .pure ⟨⟨hgrows, ?_, ?_⟩, has_create⟩⟩
  · rw [log_create]
    simp only [logged, View.heapTop, Host.view]
    simp [word_create]
  · exact hA.of_store hgrows rfl hstore
  · have hheap := heapImage_create kind k hA.store.blocks
    have hframe := frame_grows hA hgrows rfl
    rw [← hsize] at hheap
    simp only [Host.view] at hword ⊢
    rw [hframe, hheap]
    simp only [View.heapTop] at hword ⊢
    rw [hword]
    simp [Word.ofNat_add_one]
    exact ⟨rfl, rfl⟩

theorem fieldCount_small {c : String} (h : fieldCount? p.heads c = some k)
    (H : Host p) : k < 2 ^ 63 := by
  obtain ⟨cls, hcls, rfl⟩ := Option.map_eq_some_iff.mp h
  exact Nat.lt_of_le_of_lt (List.length_filter_le _ _)
    (H.fields cls (List.mem_of_find?_eq_some hcls))

theorem exists_cellTy {c : String} (h : fieldCount? p.heads c = some k) (i : Nat) (hi : i < k) :
    ∃ t, cellTy? p.heads (.object c) i = some t := by
  obtain ⟨cls, hcls, rfl⟩ := Option.map_eq_some_iff.mp h
  exact ⟨_, by simp only [cellTy?, hcls, Option.bind_eq_bind, Option.bind_some,
    List.getElem?_eq_getElem hi]; rfl⟩

theorem Host.Sim.createObject {c : String} (hA : A.Valid H σ env vars)
    (hcode : H.Carries A pc (within vars [.create (.object c)]))
    (hcount : fieldCount? p.heads c = some k) :
    H.Sim n (Semantics.allocate (.object c) k) σ
      (H.view A σ env vars pc (ops ++ [-1] ++ [Word.ofNat k]))
      (H.Pushes A σ env vars (pc + 1) ops (.cls c)) := by
  have hint : (Word.ofNat k).toInt = k := Word.toInt_ofNat (fieldCount_small hcount H)
  have hnat : (Word.ofNat k).toInt.toNat = k := by rw [hint, Int.toNat_natCast]
  refine .atItem hA hcode rfl (Instr.of_op_ne (by decide)) (Nat.le_succ n)
    (does_prim (.bind (does_pop2 stack_two ?_)))
  refine does_createBlock (.object c) hA ?_ ?_ ?_ ?_
  · rw [hnat]
    exact exists_cellTy hcount
  · rintro name hname
    cases hname
    rw [hnat]
    exact hcount
  · intro hneg
    omega
  · rw [hnat]
    exact fun _ => rfl

theorem Host.Sim.createArray {t : Ty} {w : Word} (hA : A.Valid H σ env vars)
    (hcode : H.Carries A pc (within vars [.create (.array t)])) :
    H.Sim n (allocateArray t w) σ (H.view A σ env vars pc (ops ++ [w]))
      (H.Pushes A σ env vars (pc + 1) ops (.array t)) := by
  have hstack : (H.view A σ env vars pc (ops ++ [w])).stack = (A.frame σ env vars ++ ops) ++
      [w] := by
    simp [Host.view]
  refine .atItem hA hcode rfl (Instr.of_op_ne (by decide)) (Nat.le_succ n)
    (does_prim (.bind (does_pop hstack ?_)))
  refine does_createBlock (.array t) hA (fun i _ => ⟨t, rfl⟩)
    (fun _ h => BlockKind.noConfusion h) ?_ ?_
  · intro hneg
    rw [allocateArray, if_pos (Word.lt_zero.mpr hneg)]
    rfl
  · intro hnonneg
    rw [allocateArray, if_neg (by rw [Word.lt_zero]; omega)]
    rfl

end Creation

end Simulation

end MiniJava
