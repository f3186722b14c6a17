import Mathlib
import MiniJava.Machine.Step
import MiniJava.Proofs.Sequence
/-!
The machine's memory as two lists, the stack from below and the heap from above, and what the
elementary actions do to them. Addresses are natural numbers here, and words only where the machine
holds them.
-/
namespace MiniJava

namespace Word

theorem toInt_ofNat {n : Nat} (h : n < 2 ^ 63) : (ofNat n).toInt = n := Int64.toInt_ofNat_of_lt h

theorem ofNat_le {m n : Nat} (hm : m < 2 ^ 63) (hn : n < 2 ^ 63) : ofNat m ≤ ofNat n ↔ m ≤ n :=
  Int64.ofNat_le_iff_le hm hn

theorem ofNat_lt {m n : Nat} (hm : m < 2 ^ 63) (hn : n < 2 ^ 63) : ofNat m < ofNat n ↔ m < n :=
  Int64.ofNat_lt_iff_lt hm hn

theorem ofNat_add (m n : Nat) : ofNat (m + n) = ofNat m + ofNat n := Int64.ofNat_add m n

theorem ofNat_add_one (n : Nat) : ofNat n + 1 = ofNat (n + 1) := (ofNat_add n 1).symm

theorem ofNat_add_two (n : Nat) : ofNat n + 2 = ofNat (n + 2) := (ofNat_add n 2).symm

theorem ofNat_sub {m n : Nat} (h : n ≤ m) : ofNat (m - n) = ofNat m - ofNat n :=
  Int64.ofNat_sub m n h

theorem ofNat_add_ofInt {m n : Nat} {d : Int}
    (h : m + d = n) : ofNat m + Int64.ofInt d = ofNat n := by
  have hm (k : Nat) : ofNat k = Int64.ofInt k := (Int64.ofInt_eq_ofNat).symm
  rw [hm, hm, ← h, Int64.ofInt_add]

theorem ofNat_inj {m n : Nat} (hm : m < 2 ^ 63) (hn : n < 2 ^ 63) : ofNat m = ofNat n ↔ m = n := by
  rw [← Int64.toInt_inj, toInt_ofNat hm, toInt_ofNat hn, Int.ofNat_inj]

theorem index?_ofNat {n bound : Nat} (h : n < bound)
    (hn : n < 2 ^ 63) : (ofNat n).index? bound = some ⟨n, h⟩ := by
  simp [index?, toInt_ofNat hn, h]

/-- The number that a word stands for, if it is not negative. -/
theorem ofNat_toNat {w : Word} (h : 0 ≤ w.toInt) : ofNat w.toInt.toNat = w := by
  rw [← Int64.toInt_inj, toInt_ofNat (by have := w.toInt_lt; omega)]
  omega

theorem lt_zero {w : Word} : w < 0 ↔ w.toInt < 0 := Int64.lt_iff_toInt_lt

theorem index?_eq_none {w : Word} {bound : Nat} (hb : bound < 2 ^ 63) :
    w.index? bound = none ↔ w < 0 ∨ ofNat bound ≤ w := by
  rw [lt_zero, Int64.le_iff_toInt_le, toInt_ofNat hb]
  unfold index?
  split <;> simp <;> omega

theorem eq_of_index? {w : Word} {bound : Nat} {j : Fin bound}
    (h : w.index? bound = some j) : w = ofNat j := by
  unfold index? at h
  split at h
  · rename_i hw
    cases h
    exact (ofNat_toNat hw.1).symm
  · cases h

theorem toInt_sub {a b : Word} (hlow : -2 ^ 63 ≤ a.toInt - b.toInt)
    (hhigh : a.toInt - b.toInt < 2 ^ 63) : (a - b).toInt = a.toInt - b.toInt := by
  rw [Int64.toInt_sub]
  exact Int.bmod_eq_of_le (by omega) (by omega)

end Word

namespace Machine

/-- A state as lists: the words of the stack and of the heap, each from the lowest address on, the
other registers and the channels. -/
structure View where
  stack : List Word
  heap : List Word
  lb : Word
  ob : Word
  cp : Word
  input : Option Input
  output : Output

namespace View

/-- The address of the lowest word of the heap. -/
def heapTop (v : View) : Nat := memorySize - v.heap.length

/-- A state that looks like `v`. Between stack and heap lie words that do not matter. -/
structure Shows (v : View) (s : State) : Prop where
  memory : ∃ gap, s.data.toList = v.stack ++ (gap ++ v.heap) ∧
    v.stack.length + (gap.length + v.heap.length) = memorySize
  st : s.st = Word.ofNat v.stack.length
  ht : s.ht = Word.ofNat v.heapTop
  lb : s.lb = v.lb
  ob : s.ob = v.ob
  cp : s.cp = v.cp
  input : s.input = v.input
  output : s.output = v.output

namespace Shows

variable {v : View} {s : State}

theorem size (h : v.Shows s) : s.data.size = memorySize := by
  obtain ⟨gap, hdata, hlen⟩ := h.memory
  rw [← Array.length_toList, hdata]
  simpa using hlen

theorem room (h : v.Shows s) : v.stack.length + v.heap.length ≤ memorySize := by
  obtain ⟨gap, -, hlen⟩ := h.memory
  omega

theorem index? (h : v.Shows s) {n : Nat} (hn : n < memorySize) :
    (Word.ofNat n).index? s.data.size = some ⟨n, by rw [h.size]; exact hn⟩ :=
  Word.index?_ofNat _ (Nat.lt_trans hn (by decide))

theorem stack_getElem (h : v.Shows s) {i : Nat} (hi : i < s.data.size) {w : Word}
    (hw : v.stack[i]? = some w) : s.data[i] = w := by
  obtain ⟨gap, hdata, -⟩ := h.memory
  have hlt := (List.getElem?_eq_some_iff.mp hw).1
  have hget : s.data.toList[i]? = some w := by rw [hdata, List.getElem?_append_left hlt, hw]
  simpa [hi] using hget

theorem heap_getElem (h : v.Shows s) {i : Nat} (hi : v.heapTop + i < s.data.size) {w : Word}
    (hw : v.heap[i]? = some w) : s.data[v.heapTop + i] = w := by
  obtain ⟨gap, hdata, hlen⟩ := h.memory
  have htop : v.heapTop = v.stack.length + gap.length := by
    unfold heapTop
    omega
  have hget : s.data.toList[v.heapTop + i]? = some w := by
    rw [hdata, List.getElem?_append_right (by omega), List.getElem?_append_right (by omega), ← hw]
    congr 1
    omega
  simpa [hi] using hget

end Shows

end View

/-- From every state that looks like `v`, the action comes to a state that looks as `Q` says of its
result, or stops with an error as `F` says, never otherwise. -/
def Does {α : Type} (x : Action α) (v : View) (Q : α → View → Prop)
    (F : Fault → Output → Prop) : Prop :=
  ∀ s, v.Shows s → (∃ a s' v', x s = .ok a s' ∧ v'.Shows s' ∧ Q a v') ∨
    ∃ f s', x s = .error (.fault f) s' ∧ F f s'.output

variable {α β : Type} {v : View} {F : Fault → Output → Prop}

theorem Does.pure {a : α} {Q : α → View → Prop} (h : Q a v) : Does (pure a) v Q F :=
  fun s hs => .inl ⟨a, s, v, rfl, hs, h⟩

theorem Does.bind {x : Action α} {f : α → Action β} {Q : β → View → Prop}
    (h : Does x v (fun a v' => Does (f a) v' Q F) F) : Does (x >>= f) v Q F := by
  intro s hs
  rcases h s hs with ⟨a, u, v', ha, hu, hf⟩ | ⟨e, u, he, hF⟩
  · rw [EStateM.bind_of_ok ha]
    exact hf u hu
  · rw [EStateM.bind_of_error he]
    exact .inr ⟨e, u, rfl, hF⟩

theorem Does.of_room {x : Action α} {Q : α → View → Prop}
    (h : v.stack.length + v.heap.length ≤ memorySize → Does x v Q F) : Does x v Q F :=
  fun s hs => h hs.room s hs

theorem does_fault {f : Fault} {Q : α → View → Prop} (h : F f v.output) : Does (fault f) v Q F :=
  fun s hs => .inr ⟨f, s, rfl, hs.output.symm ▸ h⟩

theorem does_look {f : State → Word} {w : Word} {Q : Word → View → Prop}
    (hf : ∀ s, v.Shows s → f s = w) (h : Q w v) : Does (look f) v Q F :=
  fun s hs => .inl ⟨w, s, v, by rw [look, hf s hs], hs, h⟩

theorem does_push {w : Word} {Q : Unit → View → Prop}
    (h : Q () { v with stack := v.stack ++ [w] })
    (hover : v.stack.length + v.heap.length = memorySize → F .stackOverflow v.output) :
    Does (push w) v Q F := by
  intro s hs
  obtain ⟨gap, hdata, hlen⟩ := hs.memory
  have hfull : s.ht ≤ s.st ↔ gap = [] := by
    rw [hs.ht, hs.st, View.heapTop,
      Word.ofNat_le (by simp [memorySize]; omega) (by simp [memorySize] at hlen; omega),
      ← List.length_eq_zero_iff]
    omega
  cases gap with
  | nil =>
    rw [List.length_nil, Nat.zero_add] at hlen
    exact .inr ⟨_, s, by rw [push, if_pos (hfull.mpr rfl)], hs.output.symm ▸ hover hlen⟩
  | cons g gap =>
    have hlt : v.stack.length < memorySize := by
      simp at hlen
      omega
    have hpush :
        push w s = .ok () { s with
          data := s.data.set v.stack.length w (by rw [hs.size]; exact hlt), st := s.st + 1 } := by
      rw [push, if_neg (by simp [hfull])]
      simp [hs.st, hs.index? hlt]
    refine .inl ⟨(), _, { v with stack := v.stack ++ [w] }, hpush,
      ⟨⟨gap, ?_, ?_⟩, ?_, hs.ht, hs.lb, hs.ob, hs.cp, hs.input, hs.output⟩, h⟩
    · simp [Array.toList_set, hdata]
    · simp at hlen ⊢
      omega
    · simp [hs.st, Word.ofNat_add]
      rfl

theorem does_pop {w : Word} {rest : List Word} {Q : Word → View → Prop}
    (hstack : v.stack = rest ++ [w]) (h : Q w { v with stack := rest }) : Does pop v Q F := by
  intro s hs
  obtain ⟨gap, hdata, hlen⟩ := hs.memory
  rw [hstack] at hdata hlen
  simp only [List.length_append, List.length_singleton] at hlen
  have hlt : rest.length < s.data.size := by
    rw [hs.size]
    omega
  have htop : s.st - 1 = Word.ofNat rest.length := by
    rw [hs.st, hstack, List.length_append, Word.ofNat_add]
    exact Int64.add_sub_cancel _ _
  have hpos : ¬ s.st ≤ 0 := by
    have hst : s.st = Word.ofNat (rest.length + 1) := by rw [hs.st, hstack, List.length_append]; rfl
    rw [hst, show (0 : Word) = Word.ofNat 0 from rfl,
      Word.ofNat_le (by simp [memorySize] at hlen; omega) (by decide)]
    omega
  have hw : s.data[rest.length] = w := hs.stack_getElem hlt (by simp [hstack])
  have hpop : pop s = .ok w { s with st := Word.ofNat rest.length } := by
    rw [pop, if_neg hpos]
    simp [htop, hs.index? (hs.size ▸ hlt), hw]
  refine .inl ⟨w, _, { v with stack := rest }, hpop,
    ⟨⟨w :: gap, ?_, ?_⟩, rfl, hs.ht, hs.lb, hs.ob, hs.cp, hs.input, hs.output⟩, h⟩
  · simpa using hdata
  · simp
    omega

theorem does_fetch_stack {a : Word} {i : Nat} {w : Word} {Q : Word → View → Prop}
    (ha : a = Word.ofNat i) (hw : v.stack[i]? = some w) (h : Q w v) : Does (fetch a) v Q F := by
  intro s hs
  have hroom := hs.room
  have hi := (List.getElem?_eq_some_iff.mp hw).1
  have hlt : i < s.data.size := by
    rw [hs.size]
    omega
  refine .inl ⟨w, s, v, ?_, hs, h⟩
  simp [fetch, ha, hs.index? (hs.size ▸ hlt), hs.stack_getElem hlt hw]

theorem does_fetch_heap {a : Word} {i : Nat} {w : Word} {Q : Word → View → Prop}
    (ha : a = Word.ofNat (v.heapTop + i)) (hw : v.heap[i]? = some w)
    (h : Q w v) : Does (fetch a) v Q F := by
  intro s hs
  have hroom := hs.room
  have hi := (List.getElem?_eq_some_iff.mp hw).1
  have hlt : v.heapTop + i < s.data.size := by
    rw [hs.size, View.heapTop]
    omega
  refine .inl ⟨w, s, v, ?_, hs, h⟩
  simp [fetch, ha, hs.index? (hs.size ▸ hlt), hs.heap_getElem hlt hw]

theorem does_put_stack {a w : Word} {i : Nat} {Q : Unit → View → Prop} (ha : a = Word.ofNat i)
    (hi : i < v.stack.length)
    (h : Q () { v with stack := v.stack.set i w }) : Does (put a w) v Q F := by
  intro s hs
  obtain ⟨gap, hdata, hlen⟩ := hs.memory
  have hlt : i < memorySize := by omega
  have hput :
      put a w s = .ok () { s with data := s.data.set i w (by rw [hs.size]; exact hlt) } := by
    simp [put, ha, hs.index? hlt]
  refine .inl ⟨(), _, { v with stack := v.stack.set i w }, hput,
    ⟨⟨gap, ?_, ?_⟩, ?_, hs.ht, hs.lb, hs.ob, hs.cp,
    hs.input, hs.output⟩, h⟩
  · simp [Array.toList_set, hdata, hi]
  · simpa using hlen
  · simpa using hs.st

theorem does_put_heap {a w : Word} {i : Nat} {Q : Unit → View → Prop}
    (ha : a = Word.ofNat (v.heapTop + i)) (hi : i < v.heap.length)
    (h : Q () { v with heap := v.heap.set i w }) : Does (put a w) v Q F := by
  intro s hs
  obtain ⟨gap, hdata, hlen⟩ := hs.memory
  have htop : v.heapTop = v.stack.length + gap.length := by
    unfold View.heapTop
    omega
  have hlt : v.heapTop + i < memorySize := by omega
  have hput :
      put a w s =
        .ok () { s with data := s.data.set (v.heapTop + i) w (by rw [hs.size]; exact hlt) } := by
    simp [put, ha, hs.index? hlt]
  refine .inl ⟨(), _, { v with heap := v.heap.set i w }, hput,
    ⟨⟨gap, ?_, ?_⟩, hs.st, ?_, hs.lb, hs.ob, hs.cp,
    hs.input, hs.output⟩, h⟩
  · rw [Array.toList_set, hdata, List.set_append, if_neg (by omega), List.set_append,
      if_neg (by omega)]
    congr 3
    omega
  · simpa using hlen
  · simpa [View.heapTop] using hs.ht

theorem does_checkAddress {a : Word} {i : Nat} {Q : Unit → View → Prop} (ha : a = Word.ofNat i)
    (hi : i < v.stack.length ∨ v.heapTop ≤ i ∧ i < memorySize)
    (h : Q () v) : Does (checkAddress a) v Q F := by
  intro s hs
  have hroom := hs.room
  have hlt : i < memorySize := by omega
  have hsmall : i < 2 ^ 63 := Nat.lt_trans hlt (by decide)
  have hin : ¬ (a < 0 ∨ Word.ofNat s.data.size ≤ a) := by
    rw [ha, hs.size, Word.lt_zero, Word.toInt_ofNat hsmall, Word.ofNat_le (by decide) hsmall]
    omega
  have hgap : ¬ (s.st ≤ a ∧ a < s.ht) := by
    rw [ha, hs.st, hs.ht, Word.ofNat_le (by simp [memorySize] at hroom; omega) hsmall,
      Word.ofNat_lt hsmall (by simp [View.heapTop, memorySize]; omega)]
    omega
  exact .inl ⟨(), s, v, by rw [checkAddress, if_neg hin, if_neg hgap], hs, h⟩

theorem does_load_stack {a : Word} {i : Nat} {w : Word} {Q : Word → View → Prop}
    (ha : a = Word.ofNat i) (hw : v.stack[i]? = some w) (h : Q w v) : Does (load a) v Q F :=
  .bind (does_checkAddress ha (.inl (List.getElem?_eq_some_iff.mp hw).1) (does_fetch_stack ha hw h))

theorem does_store_stack {a w : Word} {i : Nat} {Q : Unit → View → Prop} (ha : a = Word.ofNat i)
    (hi : i < v.stack.length)
    (h : Q () { v with stack := v.stack.set i w }) : Does (store a w) v Q F :=
  .bind (does_checkAddress ha (.inl hi) (does_put_stack ha hi h))

theorem does_load_heap {a : Word} {i : Nat} {w : Word} {Q : Word → View → Prop}
    (ha : a = Word.ofNat (v.heapTop + i)) (hw : v.heap[i]? = some w)
    (h : Q w v) : Does (load a) v Q F := by
  refine .of_room fun hroom => ?_
  have hi := (List.getElem?_eq_some_iff.mp hw).1
  have hin : v.heapTop ≤ v.heapTop + i ∧ v.heapTop + i < memorySize := by
    unfold View.heapTop
    omega
  exact .bind (does_checkAddress ha (.inr hin) (does_fetch_heap ha hw h))

theorem does_store_heap {a w : Word} {i : Nat} {Q : Unit → View → Prop}
    (ha : a = Word.ofNat (v.heapTop + i)) (hi : i < v.heap.length)
    (h : Q () { v with heap := v.heap.set i w }) : Does (store a w) v Q F := by
  refine .of_room fun hroom => ?_
  have hin : v.heapTop ≤ v.heapTop + i ∧ v.heapTop + i < memorySize := by
    unfold View.heapTop
    omega
  exact .bind (does_checkAddress ha (.inr hin) (does_put_heap ha hi h))

theorem does_setHt {n : Nat} {Q : Unit → View → Prop}
    (hroom : v.stack.length + n + v.heap.length ≤ memorySize)
    (h : ∀ taken : List Word, taken.length = n → Q () { v with heap := taken ++ v.heap }) :
    Does (setHt (Word.ofNat (v.heapTop - n))) v Q F := by
  intro s hs
  obtain ⟨gap, hdata, hlen⟩ := hs.memory
  have hn : gap.length - n + n = gap.length := by omega
  have htaken : (gap.drop (gap.length - n)).length = n := by
    rw [List.length_drop]
    omega
  refine .inl ⟨(), _, { v with heap := gap.drop (gap.length - n) ++ v.heap }, rfl,
    ⟨⟨gap.take (gap.length - n), ?_, ?_⟩, hs.st, ?_, hs.lb, hs.ob, hs.cp, hs.input, hs.output⟩,
    h _ htaken⟩
  · rw [← List.append_assoc (gap.take _), List.take_append_drop]
    exact hdata
  · simp only [List.length_append, htaken, List.length_take]
    omega
  · simp only [View.heapTop, List.length_append, htaken]
    congr 1
    omega

theorem does_clear {n : Nat} {a : Word} {before old after : List Word} {Q : Unit → View → Prop}
    (hheap : v.heap = before ++ old ++ after) (hold : old.length = n)
    (ha : a = Word.ofNat (v.heapTop + before.length))
    (h : Q () { v with heap := before ++ List.replicate n 0 ++ after }) :
    Does (clear n a) v Q F := by
  induction n generalizing v a before old with
  | zero =>
    cases List.length_eq_zero_iff.mp hold
    rw [List.append_nil] at hheap
    simp only [List.replicate_zero, List.append_nil, ← hheap] at h
    exact .pure h
  | succ n ih =>
    obtain ⟨w, old, rfl⟩ := List.exists_cons_of_length_eq_add_one hold
    have hlen : v.heap.length = before.length + (old.length + 1) + after.length := by
      simp [hheap]
      omega
    have hset : v.heap.set before.length 0 = (before ++ [0]) ++ old ++ after := by simp [hheap]
    refine .bind (does_put_heap ha (by omega) (ih hset (Nat.succ.inj hold) ?_ ?_))
    · rw [ha, show (1 : Word) = Word.ofNat 1 from rfl, ← Word.ofNat_add]
      simp [View.heapTop, Nat.add_assoc]
    · simpa [List.replicate_succ] using h

theorem does_fault_bind {f : Fault} {k : α → Action β} {Q : β → View → Prop} (h : F f v.output) :
    Does (fault f >>= k) v Q F :=
  .bind (does_fault h)

theorem does_initialize {cls size t₀ t₁ : Word} {n : Nat} {taken older : List Word}
    {Q : Word → View → Prop} (hheap : v.heap = t₀ :: t₁ :: (taken ++ older))
    (hlen : taken.length = n)
    (h : Q (Word.ofNat (v.heapTop + 2))
      { v with heap := cls :: size :: (List.replicate n 0 ++ older) }) :
    Does (do
      put (Word.ofNat v.heapTop) cls
      put (Word.ofNat v.heapTop + 1) size
      clear n (Word.ofNat v.heapTop + 2)
      return Word.ofNat v.heapTop + 2) v Q F := by
  have hcleared : ((v.heap.set 0 cls).set 1 size) = [cls, size] ++ taken ++ older := by simp [hheap]
  rw [Word.ofNat_add_one, Word.ofNat_add_two]
  refine .bind (does_put_heap (i := 0) rfl (by simp [hheap]) ?_)
  refine .bind (does_put_heap (i := 1) (by simp [View.heapTop]) (by simp [hheap]) ?_)
  refine .bind (does_clear hcleared hlen (by simp [View.heapTop]) (.pure ?_))
  simpa using h

/-- The room above the stack is computed without overflow. -/
theorem toInt_room {top n : Nat} {size : Word} (hpos : 0 < top) (htop : top ≤ memorySize)
    (hn : size.toInt = n) : (Word.ofNat top - size - 2).toInt = top - n - 2 := by
  unfold memorySize at htop
  have hbound := size.toInt_lt
  have hheap : (Word.ofNat top).toInt = top := Word.toInt_ofNat (by omega)
  have hfirst : (Word.ofNat top - size).toInt = top - n := by
    rw [Word.toInt_sub (by omega) (by omega), hheap, hn]
  rw [Word.toInt_sub (by rw [hfirst]; simp; omega) (by rw [hfirst]; simp; omega), hfirst]
  rfl

/-- The memory below the heap is at least as large as the stack, so that a difference of sizes stays
in the range of words. -/
theorem does_allocate {cls size : Word} {Q : Word → View → Prop} (hstack : v.stack ≠ [])
    (hneg : size.toInt < 0 → F (.negativeSize size) v.output)
    (hfull : memorySize ≤ v.stack.length + size.toInt.toNat + 2 + v.heap.length →
      F .heapExhausted v.output)
    (h : ∀ n : Nat, size = Word.ofNat n → size.toInt = n →
      v.stack.length + n + 2 + v.heap.length < memorySize →
      Q (Word.ofNat (v.heapTop - n))
      { v with heap := cls :: size :: (List.replicate n 0 ++ v.heap) }) :
    Does (allocate cls size) v Q F := by
  refine .of_room fun hroom => ?_
  have htop : v.heapTop ≤ 65536 ∧ v.stack.length ≤ v.heapTop := by
    unfold View.heapTop
    unfold memorySize at hroom ⊢
    omega
  have hpos := List.length_pos_iff.mpr hstack
  unfold allocate
  dsimp only
  split
  · rename_i hlt
    exact does_fault_bind (hneg (Word.lt_zero.mp hlt))
  · rename_i hnonneg
    rw [Word.lt_zero, Int.not_lt] at hnonneg
    obtain ⟨n, hn⟩ : ∃ n : Nat, size.toInt = n := ⟨size.toInt.toNat, by omega⟩
    have hsize : size = Word.ofNat n := by rw [← Word.ofNat_toNat hnonneg, hn]; rfl
    refine .bind (does_look (fun s hs => hs.ht) (.bind (does_look (fun s hs => hs.st) ?_)))
    have hdiff := toInt_room (Nat.lt_of_lt_of_le hpos htop.2) htop.1 hn
    split
    · rename_i hexhausted
      rw [Int64.le_iff_toInt_le, hdiff, Word.toInt_ofNat (by omega)] at hexhausted
      exact does_fault_bind (hfull (by unfold View.heapTop at hexhausted; omega))
    · rename_i hfits
      rw [Int64.le_iff_toInt_le, hdiff, Word.toInt_ofNat (by omega)] at hfits
      have hbase : Word.ofNat v.heapTop - (size + 2) = Word.ofNat (v.heapTop - (n + 2)) := by
        rw [Word.ofNat_sub (by omega), hsize, Word.ofNat_add_two]
      rw [hbase, hn, Int.toNat_natCast]
      refine .bind (does_setHt (by unfold View.heapTop at hfits; omega) fun taken htaken => ?_)
      obtain ⟨t₀, taken, rfl⟩ := List.exists_cons_of_length_eq_add_one htaken
      obtain ⟨t₁, taken, rfl⟩ := List.exists_cons_of_length_eq_add_one (Nat.succ.inj htaken)
      simp only [List.length_cons, Nat.add_right_cancel_iff] at htaken
      have hnew : v.heapTop - (n + 2) =
          View.heapTop { v with heap := t₀ :: t₁ :: taken ++ v.heap } := by
        simp [View.heapTop]
        omega
      rw [hnew]
      refine does_initialize rfl htaken ?_
      rw [← hnew, show v.heapTop - (n + 2) + 2 = v.heapTop - n by omega]
      exact h n hsize hn (by unfold View.heapTop at hfits; omega)

section Block

variable {a i cls : Word} {newer cells older : List Word}

/-- The address of a block of the heap, which is that of its first word after the header. -/
def blockAddress (cells older : List Word) : Nat := memorySize - (cells.length + older.length)

/-- What the address of a block tells: the words before it are its header, and it passes the
checks. -/
theorem blockAddress_facts
    (hheap : v.heap = newer ++ cls :: Word.ofNat cells.length :: (cells ++ older))
    (ha : a = Word.ofNat (blockAddress cells older))
    (hroom : v.stack.length + v.heap.length ≤ memorySize) :
    cells.length < 2 ^ 63 ∧ v.heapTop + newer.length + 2 = blockAddress cells older ∧ a ≠ 0 ∧
      a - 1 = Word.ofNat (v.heapTop + (newer.length + 1)) ∧
      a - 2 = Word.ofNat (v.heapTop + newer.length) ∧
      ¬ (a - 2 < Word.ofNat v.heapTop ∨ Word.ofNat memorySize < a) := by
  have hlen : v.heap.length = newer.length + (cells.length + older.length + 2) := by simp [hheap]
  have hmem : memorySize = 65536 := rfl
  have haddr : v.heapTop + newer.length + 2 = blockAddress cells older ∧
      blockAddress cells older ≤ memorySize := by
    unfold View.heapTop blockAddress
    omega
  have hback (k : Nat) (hk : k ≤ 2) :
      a - Word.ofNat k = Word.ofNat (v.heapTop + newer.length + (2 - k)) := by
    rw [ha, ← Word.ofNat_sub (by omega)]
    congr 1
    omega
  refine ⟨by omega, haddr.1, ?_, hback 1 (by decide), hback 2 (by decide), ?_⟩
  · rw [ha, ne_eq, show (0 : Word) = Word.ofNat 0 from rfl, Word.ofNat_inj (by omega) (by decide)]
    omega
  · rw [show a - 2 = _ from hback 2 (by decide), ha, Word.ofNat_lt (by omega) (by omega),
      Word.ofNat_lt (by omega) (by omega)]
    omega

theorem does_element {array : Bool} {Q : Word → View → Prop}
    (hheap : v.heap = newer ++ cls :: Word.ofNat cells.length :: (cells ++ older))
    (ha : a = Word.ofNat (blockAddress cells older)) (harray : array = true → cls = arrayClass)
    (hin : ∀ j, i.index? cells.length = some j →
      Q (Word.ofNat (v.heapTop + (newer.length + 2 + j))) v)
    (hout : i.index? cells.length = none →
      F (.indexOutOfRange i (Word.ofNat cells.length)) v.output) :
    Does (element a i array) v Q F := by
  refine .of_room fun hroom => ?_
  obtain ⟨hcells, haddr, hnull, hback₁, hback₂, hblock⟩ := blockAddress_facts hheap ha hroom
  have hcount : Does (do
      let count ← fetch (a - 1)
      if i < 0 ∨ count ≤ i then fault (.indexOutOfRange i count) >>= fun (_ : Unit) => pure (a + i)
      else pure (a + i)) v Q F := by
    refine .bind (does_fetch_heap (w := Word.ofNat cells.length) hback₁ (by simp [hheap]) ?_)
    cases hindex : i.index? cells.length with
    | none =>
      rw [if_pos ((Word.index?_eq_none hcells).mp hindex)]
      exact does_fault_bind (hout hindex)
    | some j =>
      have hrange : ¬ (i < 0 ∨ Word.ofNat cells.length ≤ i) := by
        rw [← Word.index?_eq_none hcells, hindex]
        nofun
      rw [if_neg hrange]
      refine .pure ?_
      have hj := hin j hindex
      rw [← Nat.add_assoc, ← Nat.add_assoc, haddr, Word.ofNat_add, ← ha, ← Word.eq_of_index? hindex]
        at hj
      exact hj
  unfold element
  dsimp only
  rw [if_neg hnull]
  refine .bind (does_look (fun s hs => hs.ht) (.bind (does_look (fun s hs => by rw [hs.size]) ?_)))
  rw [if_neg hblock]
  cases array with
  | false => exact hcount
  | true =>
    refine .bind (does_fetch_heap (w := cls) hback₂ (by simp [hheap]) ?_)
    rw [if_neg (by simp [harray rfl])]
    exact hcount

theorem does_element_null {array : Bool} {Q : Word → View → Prop} (h : F .nullPointer v.output) :
    Does (element 0 i array) v Q F := by
  unfold element
  dsimp only
  rw [if_pos rfl]
  exact does_fault_bind h

theorem does_pushCell {array : Bool} {Q : Unit → View → Prop}
    (hheap : v.heap = newer ++ cls :: Word.ofNat cells.length :: (cells ++ older))
    (ha : a = Word.ofNat (blockAddress cells older)) (harray : array = true → cls = arrayClass)
    (hover : v.stack.length + v.heap.length = memorySize → F .stackOverflow v.output)
    (hin : ∀ j, i.index? cells.length = some j →
      Q () { v with stack := v.stack ++ [cells.get j] })
    (hout : i.index? cells.length = none →
      F (.indexOutOfRange i (Word.ofNat cells.length)) v.output) :
    Does (do push (← fetch (← element a i array))) v Q F := by
  refine .bind (does_element hheap ha harray (fun j hj => .bind ?_) hout)
  refine does_fetch_heap rfl ?_ (does_push (hin j hj) hover)
  simp [hheap, List.getElem?_append_right, Nat.add_assoc, Nat.add_comm 2,
    List.getElem?_append_left j.2]

theorem does_writeCell {array : Bool} {w : Word} {Q : Unit → View → Prop}
    (hheap : v.heap = newer ++ cls :: Word.ofNat cells.length :: (cells ++ older))
    (ha : a = Word.ofNat (blockAddress cells older)) (harray : array = true → cls = arrayClass)
    (hin : ∀ j, i.index? cells.length = some j →
      Q () { v with heap := newer ++ cls :: Word.ofNat cells.length :: (cells.set j w ++ older) })
    (hout : i.index? cells.length = none →
      F (.indexOutOfRange i (Word.ofNat cells.length)) v.output) :
    Does (do put (← element a i array) w) v Q F := by
  refine .bind (does_element hheap ha harray (fun j hj => ?_) hout)
  refine does_put_heap rfl ?_ ?_
  · simp [hheap]
    omega
  · have hset : v.heap.set (newer.length + 2 + j) w =
        newer ++ cls :: Word.ofNat cells.length :: (cells.set j w ++ older) := by
      simp [hheap, Nat.add_assoc, Nat.add_comm 2]
    rw [hset]
    exact hin j hj

theorem does_arrayLength {Q : Word → View → Prop}
    (hheap : v.heap = newer ++ arrayClass :: Word.ofNat cells.length :: (cells ++ older))
    (ha : a = Word.ofNat (blockAddress cells older)) (h : Q (Word.ofNat cells.length) v) :
    Does (arrayLength a) v Q F := by
  refine .of_room fun hroom => ?_
  obtain ⟨-, -, hnull, hback₁, hback₂, hblock⟩ := blockAddress_facts hheap ha hroom
  unfold arrayLength
  dsimp only
  rw [if_neg hnull]
  refine .bind (does_look (fun s hs => hs.ht) (.bind (does_look (fun s hs => by rw [hs.size]) ?_)))
  rw [if_neg hblock]
  refine .bind (does_fetch_heap (w := arrayClass) hback₂ (by simp [hheap]) ?_)
  rw [if_neg (by simp)]
  exact does_fetch_heap (w := Word.ofNat cells.length) hback₁ (by simp [hheap]) h

theorem does_arrayLength_null {Q : Word → View → Prop} (h : F .nullPointer v.output) :
    Does (arrayLength 0) v Q F := by
  unfold arrayLength
  dsimp only
  rw [if_pos rfl]
  exact does_fault_bind h

end Block

theorem does_write {bs : Bytes} {Q : Unit → View → Prop}
    (hsink : v.output.refusal? bs.length = none)
    (h : Q () { v with output := v.output.append bs }) : Does (write bs) v Q F := by
  intro s hs
  refine .inl ⟨(), { s with output := v.output.append bs }, { v with output := v.output.append bs },
    ?_,
    ⟨hs.memory, hs.st, hs.ht, hs.lb, hs.ob, hs.cp, hs.input, rfl⟩, h⟩
  simp [write, hs.output, hsink]

theorem does_setSt {a : Word} {kept dropped : List Word} {Q : Unit → View → Prop}
    (hstack : v.stack = kept ++ dropped) (ha : a = Word.ofNat kept.length)
    (h : Q () { v with stack := kept }) : Does (setSt a) v Q F := by
  intro s hs
  obtain ⟨gap, hdata, hlen⟩ := hs.memory
  refine .inl ⟨(), { s with st := a }, { v with stack := kept }, rfl,
    ⟨⟨dropped ++ gap, ?_, ?_⟩, ha, hs.ht, hs.lb,
    hs.ob, hs.cp, hs.input, hs.output⟩, h⟩
  · simpa [hstack] using hdata
  · simp [hstack] at hlen ⊢
    omega

theorem does_drop {d : Word} {kept dropped : List Word} {Q : Unit → View → Prop}
    (hstack : v.stack = kept ++ dropped) (hd : d = Word.ofNat dropped.length)
    (h : Q () { v with stack := kept }) : Does (drop d) v Q F := by
  refine .of_room fun hroom => ?_
  intro s hs
  have hmem : memorySize = 65536 := rfl
  have hlen : v.stack.length = kept.length + dropped.length := by simp [hstack]
  have henough : ¬ s.st < d := by
    rw [hs.st, hd, Word.ofNat_lt (by omega) (by omega)]
    omega
  have htop : s.st - d = Word.ofNat kept.length := by
    rw [hs.st, hd, ← Word.ofNat_sub (by omega)]
    congr 1
    omega
  have hdrop : drop d s = setSt (s.st - d) s := by
    rw [drop, if_neg henough]
    rfl
  rw [hdrop]
  exact does_setSt hstack htop h s hs

theorem does_popOnto {n : Nat} {results above rest : List Word} {Q : List Word → View → Prop}
    (hstack : v.stack = rest ++ results) (hn : results.length = n)
    (h : Q (results ++ above) { v with stack := rest }) : Does (popOnto n above) v Q F := by
  induction n generalizing v results above with
  | zero =>
    cases List.length_eq_zero_iff.mp hn
    rw [List.append_nil] at hstack
    rw [← hstack] at h
    exact .pure h
  | succ n ih =>
    have hne : results ≠ [] := List.ne_nil_of_length_eq_add_one hn
    have hlast := List.dropLast_concat_getLast hne
    rw [← hlast, ← List.append_assoc] at hstack
    refine .bind (does_pop hstack (ih rfl (by simp [hn]) ?_))
    rw [← hlast, List.append_assoc] at h
    exact h

theorem does_pushAll {results : List Word} {Q : Unit → View → Prop}
    (hroom : v.stack.length + results.length + v.heap.length ≤ memorySize)
    (h : Q () { v with stack := v.stack ++ results }) : Does (pushAll results) v Q F := by
  induction results generalizing v with
  | nil =>
    rw [List.append_nil] at h
    exact .pure h
  | cons w results ih =>
    rw [List.length_cons] at hroom
    refine .bind (does_push (ih (by simp; omega) (by simpa using h)) fun hfull => ?_)
    omega

theorem does_call {target object : Word} {Q : Word → View → Prop}
    (hover : memorySize < v.stack.length + 3 + v.heap.length → F .stackOverflow v.output)
    (h : Q target { v with
      stack := v.stack ++ [v.ob, v.lb, v.cp + 1], lb := Word.ofNat v.stack.length, ob := object }) :
    Does (call target object) v Q F := by
  have hover' (k : Nat) (hk : k < 3) (hfull : v.stack.length + k + v.heap.length = memorySize) :
      F .stackOverflow v.output := hover (by omega)
  refine .bind (does_look (fun s hs => hs.st) (.bind (does_look (fun s hs => hs.ob) (.bind ?_))))
  refine does_push ?_ (hover' 0 (by decide))
  refine .bind (does_look (fun s hs => hs.lb) (.bind (does_push ?_ ?_)))
  · refine .bind (does_look (fun s hs => congrArg (· + 1) hs.cp) (.bind (does_push ?_ ?_)))
    · intro s hs
      refine .inl ⟨target, _,
        { v with
          stack := v.stack ++ [v.ob, v.lb, v.cp + 1], lb := Word.ofNat v.stack.length,
          ob := object }, rfl,
        ⟨?_, ?_, hs.ht, rfl, rfl, hs.cp, hs.input, hs.output⟩, h⟩
      · simpa using hs.memory
      · simpa using hs.st
    · exact fun hfull => hover' 2 (by decide) (by simpa using hfull)
  · exact fun hfull => hover' 1 (by decide) (by simpa using hfull)

/-- A return puts the results in the place of the arguments and restores what the call saved. -/
theorem does_leaveFrame {n d ob lb back : Word} {bottom args rest results : List Word}
    {Q : Word → View → Prop}
    (hstack : v.stack = bottom ++ args ++ ob :: lb :: back :: (rest ++ results))
    (hlb : v.lb = Word.ofNat (bottom ++ args).length) (hn : n = Word.ofNat results.length)
    (hd : d = Word.ofNat args.length) (hresults : results.length ≤ 1)
    (h : Q back { v with stack := bottom ++ results, lb, ob }) : Does (leaveFrame n d) v Q F := by
  refine .of_room fun hroom => ?_
  have hlen :
      v.stack.length = bottom.length + args.length + (rest.length + results.length + 3) := by
    simp [hstack]
    omega
  have hmem : memorySize = 65536 := rfl
  have hpop : popMany n = popOnto results.length [] := by
    have hint : n.toInt = results.length := by rw [hn, Word.toInt_ofNat (by omega)]
    have hsmall : ¬ (n < 0 ∨ maxResults < n) := by
      rw [Word.lt_zero, Int64.lt_iff_toInt_lt, hint,
        show maxResults.toInt = 35184372088832 from rfl]
      omega
    exact (if_neg hsmall).trans (by rw [hint, Int.toNat_natCast])
  unfold leaveFrame
  rw [hpop]
  have hstack' : v.stack = (bottom ++ args ++ ob :: lb :: back :: rest) ++ results := by
    simp [hstack]
  have hbase (k : Nat) : v.lb + Word.ofNat k = Word.ofNat ((bottom ++ args).length + k) := by
    rw [hlb, Word.ofNat_add]
  refine .bind (does_popOnto hstack' rfl (.bind (does_look (fun s hs => hs.lb) ?_)))
  have hlink (k : Nat) :
      (bottom ++ args ++ ob :: lb :: back :: rest)[(bottom ++ args).length + k]? =
        (ob :: lb :: back :: rest)[k]? := by
    rw [List.getElem?_append_right (Nat.le_add_right _ _), Nat.add_sub_cancel_left]
  refine .bind (does_fetch_stack (w := ob) hlb (hlink 0) ?_)
  refine .bind (does_fetch_stack (w := lb) (hbase 1) (hlink 1) ?_)
  refine .bind (does_fetch_stack (w := back) (hbase 2) (hlink 2) ?_)
  have hargs : v.lb - d = Word.ofNat bottom.length := by
    rw [hlb, hd, ← Word.ofNat_sub (by simp)]
    simp
  refine .bind (does_setSt (List.append_assoc bottom args _) hargs ?_)
  dsimp only
  rw [hargs, if_neg (by rw [Word.lt_zero, Word.toInt_ofNat (by omega)]; omega)]
  refine .bind (does_pushAll (by simp only [List.append_nil]; omega) ?_)
  intro s hs
  exact .inl ⟨back, _, { v with stack := bottom ++ results, lb, ob }, rfl,
    ⟨by simpa using hs.memory, by simpa using hs.st, hs.ht, rfl, rfl, hs.cp, hs.input, hs.output⟩,
    h⟩

end Machine

end MiniJava
