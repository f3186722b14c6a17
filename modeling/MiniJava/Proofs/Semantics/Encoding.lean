import MiniJava.Proofs.Machine.View
import MiniJava.Proofs.Semantics.Evaluator
import MiniJava.Proofs.Typing.Rules
/-!
Which values belong to a type, and how values and blocks lie in the machine's memory. The address of
a block depends only on the kinds and sizes of the blocks up to it, so it stays when more are
created.
-/
namespace MiniJava

/-- The first word of the header of a block. -/
def BlockKind.classWord : BlockKind → Word
  | object _ => -1
  | array _ => Machine.arrayClass

namespace Semantics

open Machine (memorySize blockAddress)

/-- The kinds and sizes of blocks, in the order of their creation. -/
abbrev World := List (BlockKind × Nat)

namespace World

/-- The number of words that blocks take, two words of header for each included. -/
def footprint (W : World) : Nat := (W.map (·.2 + 2)).sum

/-- The address of a block: only its header and newer blocks lie below it. -/
def address (W : World) (l : Nat) : Nat := memorySize + 2 - footprint (W.take (l + 1))

/-- The word that stands for a value. -/
def word (W : World) : Val → Word
  | .word w => w
  | .loc l => Word.ofNat (W.address l)

/-- The addresses and kinds of all blocks. -/
def log (W : World) : List (Word × BlockKind) := W.mapIdx fun l b => (Word.ofNat (W.address l), b.1)

/-- The values of a type. -/
def Has (W : World) : Ty → Val → Prop
  | .int, v => ∃ w, v = .word w
  | .boolean, v => ∃ b, v = .ofBool b
  | .cls c, v => v = .zero ∨ ∃ l n, v = .loc l ∧ W[l]? = some (.object c, n)
  | .array t, v => v = .zero ∨ ∃ l n, v = .loc l ∧ W[l]? = some (.array t, n)
  | .void, v | .null, v | .error, v => v = .zero

variable {W W' : World} {t : Ty} {v : Val}

@[simp] theorem word_zero : W.word .zero = 0 := rfl

@[simp] theorem word_ofBool (b : Bool) : W.word (.ofBool b) = Word.ofBool b := rfl

theorem has_zero (t : Ty) : W.Has t .zero := by
  cases t with
  | int => exact ⟨0, rfl⟩
  | boolean => exact ⟨false, rfl⟩
  | cls | array => exact .inl rfl
  | void | null | error => rfl

theorem Has.accepts {u : Ty} (h : t.Accepts u) (hv : W.Has u v) : W.Has t v := by
  cases h with
  | same => exact hv
  | null hr => cases hv; exact has_zero t

theorem Has.mono (h : W <+: W') (hv : W.Has t v) : W'.Has t v := by
  have hget {l : Nat} {b : BlockKind × Nat} (hl : W[l]? = some b) : W'[l]? = some b := by
    obtain ⟨newer, rfl⟩ := h
    rw [List.getElem?_append_left (List.getElem?_eq_some_iff.mp hl).1, hl]
  cases t with
  | int | boolean | void | null | error => exact hv
  | cls | array =>
    rcases hv with rfl | ⟨l, n, rfl, hl⟩
    · exact .inl rfl
    · exact .inr ⟨l, n, rfl, hget hl⟩

theorem address_mono (h : W <+: W') {l : Nat} (hl : l < W.length) : W'.address l = W.address l := by
  obtain ⟨newer, rfl⟩ := h
  rw [address, address, List.take_append_of_le_length hl]

theorem Has.word_eq (h : W <+: W') (hv : W.Has t v) : W'.word v = W.word v := by
  cases v with
  | word w => rfl
  | loc l =>
    have hl : l < W.length := by
      cases t with
      | int => obtain ⟨w, hw⟩ := hv; cases hw
      | boolean => obtain ⟨b, hb⟩ := hv; cases hb
      | void | null | error => cases hv
      | cls | array =>
        obtain ⟨l', n, hloc, hl⟩ := hv.resolve_left nofun
        cases hloc
        exact (List.getElem?_eq_some_iff.mp hl).1
    exact congrArg Word.ofNat (address_mono h hl)

/-- The words that stand for values of a type. -/
def Holds (W : World) (t : Ty) (w : Word) : Prop := ∃ v, W.Has t v ∧ W.word v = w

theorem Holds.mono {w : Word} (h : W <+: W') : W.Holds t w → W'.Holds t w := by
  rintro ⟨v, hv, rfl⟩
  exact ⟨v, hv.mono h, hv.word_eq h⟩

theorem log_append (b : BlockKind × Nat) :
    log (W ++ [b]) = W.log ++ [(Word.ofNat (address (W ++ [b]) W.length), b.1)] := by
  have hold : W.mapIdx (fun l c => (Word.ofNat (address (W ++ [b]) l), c.1)) = W.log := by
    refine List.ext_getElem? fun i => ?_
    simp only [log, List.getElem?_mapIdx]
    cases hi : W[i]? with
    | none => rfl
    | some c =>
      have hlt := (List.getElem?_eq_some_iff.mp hi).1
      simp only [Option.map_some, address_mono (List.prefix_append W [b]) hlt]
  rw [log, List.mapIdx_append, hold]
  simp

theorem mem_log {l : Nat} {k : BlockKind} {n : Nat} (h : W[l]? = some (k, n)) :
    (Word.ofNat (W.address l), k) ∈ W.log := by
  refine List.mem_iff_getElem?.mpr ⟨l, ?_⟩
  simp [log, List.getElem?_mapIdx, h]

theorem footprint_append (W₁ W₂ : World) : footprint (W₁ ++ W₂) = W₁.footprint + W₂.footprint := by
  simp [footprint]

theorem address_lt {l l' : Nat} (hl : l < l') (hl' : l' < W.length)
    (hroom : W.footprint ≤ memorySize) : W.address l' < W.address l := by
  have hsplit := List.take_append_drop (l + 1) (W.take (l' + 1))
  rw [List.take_take, Nat.min_eq_left (by omega)] at hsplit
  have hlater : 2 ≤ footprint ((W.take (l' + 1)).drop (l + 1)) := by
    cases h : (W.take (l' + 1)).drop (l + 1) with
    | nil =>
      have hlen := congrArg List.length h
      simp at hlen
      omega
    | cons b bs => simp [footprint]; omega
  have hall : footprint (W.take (l' + 1)) ≤ memorySize := by
    have hsum := footprint_append (W.take (l' + 1)) (W.drop (l' + 1))
    rw [List.take_append_drop] at hsum
    omega
  have hsum := footprint_append (W.take (l + 1)) ((W.take (l' + 1)).drop (l + 1))
  rw [hsplit] at hsum
  unfold address
  omega

theorem address_pos {l : Nat} (hroom : W.footprint ≤ memorySize) : 2 ≤ W.address l := by
  have hsum := footprint_append (W.take (l + 1)) (W.drop (l + 1))
  rw [List.take_append_drop] at hsum
  unfold address
  omega

theorem address_le (l : Nat) (hl : l < W.length) : W.address l ≤ memorySize := by
  have h : 2 ≤ footprint (W.take (l + 1)) := by
    cases W with
    | nil => cases hl
    | cons b bs => simp [footprint]; omega
  unfold address
  omega

/-- The null reference or a reference to a block. -/
def IsReference (W : World) (v : Val) : Prop := v = .zero ∨ ∃ l, v = .loc l ∧ l < W.length

theorem Has.isReference (h : t.isReference = true ∨ t = .null)
    (hv : W.Has t v) : W.IsReference v := by
  cases t with
  | int | boolean | void | error => simp [Ty.isReference] at h
  | null => exact .inl hv
  | cls | array =>
    rcases hv with rfl | ⟨l, n, rfl, hl⟩
    · exact .inl rfl
    · exact .inr ⟨l, rfl, (List.getElem?_eq_some_iff.mp hl).1⟩

theorem word_loc_ne_zero {l : Nat} (hl : l < W.length)
    (hroom : W.footprint ≤ memorySize) : W.word (.loc l) ≠ 0 := by
  have hpos := address_pos (l := l) hroom
  have hle := address_le l hl
  have hmem : memorySize = 65536 := rfl
  rw [word, ne_eq, show (0 : Word) = Word.ofNat 0 from rfl, Word.ofNat_inj (by omega) (by decide)]
  omega

theorem IsReference.word_inj {a b : Val} (ha : W.IsReference a) (hb : W.IsReference b)
    (hroom : W.footprint ≤ memorySize) (h : W.word a = W.word b) : a = b := by
  rcases ha with rfl | ⟨l, rfl, hl⟩ <;> rcases hb with rfl | ⟨l', rfl, hl'⟩
  · rfl
  · exact absurd h.symm (word_loc_ne_zero hl' hroom)
  · exact absurd h (word_loc_ne_zero hl hroom)
  · have hle := address_le l hl
    have hle' := address_le l' hl'
    have hmem : memorySize = 65536 := rfl
    rw [word, word, Word.ofNat_inj (by omega) (by omega)] at h
    rcases Nat.lt_trichotomy l l' with hlt | rfl | hlt
    · exact absurd h (Nat.ne_of_gt (address_lt hlt hl' hroom))
    · rfl
    · exact absurd h (Nat.ne_of_lt (address_lt hlt hl hroom))

end World

/-- The words of a block with its header. -/
def Block.image (W : World) (b : Block) : List Word :=
  b.kind.classWord :: Word.ofNat b.cells.length :: b.cells.map W.word

/-- The words of the heap, the newest block first. -/
def heapImage (W : World) : List Block → List Word
  | [] => []
  | b :: newer => heapImage W newer ++ b.image W

def Block.shape (b : Block) : BlockKind × Nat := (b.kind, b.cells.length)

def Store.world (σ : Store) : World := σ.heap.map Block.shape

section Images

variable {W : World} {b : Block} {older newer heap : List Block}

theorem heapImage_append :
    heapImage W (older ++ newer) = heapImage W newer ++ heapImage W older := by
  induction older with
  | nil => simp [heapImage]
  | cons b older ih => simp [heapImage, ih]

theorem length_heapImage : (heapImage W heap).length = World.footprint (heap.map Block.shape) := by
  induction heap with
  | nil => rfl
  | cons b heap ih =>
    simp only [heapImage, List.length_append, ih, Block.image, List.length_cons, List.length_map,
      List.map_cons, World.footprint, List.sum_cons, Block.shape]
    omega

theorem getElem?_split {α : Type} {xs : List α} {i : Nat} {a : α} (h : xs[i]? = some a) :
    ∃ before after, xs = before ++ a :: after ∧ before.length = i := by
  obtain ⟨hi, rfl⟩ := List.getElem?_eq_some_iff.mp h
  exact ⟨xs.take i, xs.drop (i + 1), by simp, by simp; omega⟩

theorem modify_append_cons {α : Type} (f : α → α) (before : List α) (a : α) (after : List α) :
    (before ++ a :: after).modify before.length f = before ++ f a :: after := by
  induction before with
  | nil => simp
  | cons b before ih => simp [ih]

/-- Where a block lies among the words of the heap, also when its cells change. -/
theorem heapImage_block {l : Nat} (h : heap[l]? = some b) :
    ∃ newer older, World.address (heap.map Block.shape) l =
      blockAddress (b.cells.map W.word) older ∧
      heapImage W heap = newer ++ b.kind.classWord :: Word.ofNat b.cells.length ::
        (b.cells.map W.word ++ older) ∧
      ∀ f : Block → Block, (f b).shape = b.shape → heapImage W (heap.modify l f) =
        newer ++ b.kind.classWord :: Word.ofNat b.cells.length ::
          ((f b).cells.map W.word ++ older) := by
  obtain ⟨before, after, rfl, rfl⟩ := getElem?_split h
  refine ⟨heapImage W after, heapImage W before, ?_, ?_, ?_⟩
  · have htake : List.take (before.length + 1) ((before ++ b :: after).map Block.shape) =
        before.map Block.shape ++ [b.shape] := by
      rw [List.map_append, List.take_append, List.take_of_length_le (by simp)]
      simp
    rw [World.address, htake, World.footprint_append, blockAddress, length_heapImage]
    simp [World.footprint, Block.shape]
    omega
  · rw [heapImage_append]
    simp [heapImage, Block.image]
  · intro f hf
    obtain ⟨hkind, hlen⟩ := Prod.mk.inj hf
    rw [modify_append_cons, heapImage_append]
    simp [heapImage, Block.image, hkind, hlen]

theorem map_shape_modify {l : Nat} {f : Block → Block} (hf : ∀ b, (f b).shape = b.shape) :
    (heap.modify l f).map Block.shape = heap.map Block.shape := by
  refine List.ext_getElem? fun i => ?_
  simp only [List.getElem?_map, List.getElem?_modify]
  cases heap[i]? with
  | none => rfl
  | some b =>
    simp only [Option.map_some]
    split
    · exact congrArg some (hf b)
    · rfl

end Images

end Semantics

end MiniJava
