import MiniJava.Proofs.Machine.Apart
/-!
Access to blocks of the heap. The check of an address subtracts two from it in wrapping arithmetic
and lets the two least words pass, and the check of an index trusts the size in the header of the
block. Behind any other address, and below a size that is true, an access is refused or touches
words of the heap only.
-/
namespace MiniJava

namespace Word

/-- Only the `n` least words wrap around. -/
theorem toInt_sub_of_toInt (w : Word) {k : Word} {n : Nat} (hk : k.toInt = n) :
    (w - k).toInt = if w.toInt < -2 ^ 63 + n then w.toInt - n + 2 ^ 64 else w.toInt - n := by
  have hlow := w.le_toInt
  have hhigh := w.toInt_lt
  have hhigh' := k.toInt_lt
  rw [Int64.toInt_sub, hk, Int.bmod_def]
  split <;> omega

theorem index?_eq_none_of_toInt {w : Word} {bound : Nat}
    (h : w.toInt < 0 ∨ bound ≤ w.toInt) : w.index? bound = none := by
  unfold index?
  rw [dif_neg (by omega)]

theorem index?_of_toInt {w : Word} {n bound : Nat} (hw : w.toInt = n)
    (hn : n < bound) : w.index? bound = some ⟨n, hn⟩ := by
  unfold index?
  simp [hw, hn]

/-- A sum of two words that are not negative leaves the memory, whether it wraps around or not. -/
theorem add_outside {a b : Word} (ha : 0 ≤ a.toInt) (hb : 0 ≤ b.toInt)
    (h : (Machine.memorySize : Int) ≤ a.toInt + b.toInt) :
    (a + b).toInt < 0 ∨ (Machine.memorySize : Int) ≤ (a + b).toInt := by
  have hmemory : Machine.memorySize = 65536 := rfl
  have ha' := a.toInt_lt
  have hb' := b.toInt_lt
  rw [Int64.toInt_add, Int.bmod_def]
  omega

end Word

namespace Machine

namespace State

variable (s : State)

/-- The word at an address of the memory. -/
def word (n : Nat) : Word := s.data.getD n 0

/-- The number of words on the stack. -/
def height : Nat := s.st.toInt.toNat

/-- The two words before `a` lie in the heap, where the header of a block is looked for. -/
def HasHeader (a : Word) : Prop := s.ht.toInt ≤ a.toInt - 2 ∧ a.toInt ≤ memorySize

end State

/-- The primitives that access blocks: the length of an array, and a word of a block that is read or
written, where the block has to be an array or not. -/
inductive HeapAccess where
  | length
  | read (array : Bool)
  | update (array : Bool)
  deriving DecidableEq, Repr

namespace HeapAccess

def prim : HeapAccess → Prim
  | length => .arraylen
  | read true => .arrayref
  | read false => .fieldref
  | update true => .arrayupd
  | update false => .fieldupd

/-- The number of words that are taken from the stack: the address of the block, the index and the
new word. -/
def operands : HeapAccess → Nat
  | length => 1
  | read _ => 2
  | update _ => 3

def needsArray : HeapAccess → Bool
  | length => true
  | read array => array
  | update array => array

variable (x : HeapAccess) (s : State)

def block : Word := s.word (s.height - x.operands)

def index : Word := s.word (s.height - x.operands + 1)

def value : Word := s.word (s.height - x.operands + 2)

/-- The class and the size in the header of the block. -/
def classWord : Word := s.word ((x.block s).toInt - 2).toNat

def sizeWord : Word := s.word ((x.block s).toInt - 1).toNat

/-- The checks that an access makes, reckoned in integers. -/
structure Passes : Prop where
  operands : x.operands ≤ s.height
  header : s.HasHeader (x.block s)
  array : x.needsArray = true → x.classWord s = arrayClass
  index : x ≠ length → 0 ≤ (x.index s).toInt ∧ (x.index s).toInt < (x.sizeWord s).toInt

/-- The access goes outside the memory: its address is one of the two least words, or a block with a
false size has no such word. -/
def Escapes : Prop :=
  (x.operands ≤ s.height ∧ (x.block s).toInt < -2 ^ 63 + 2) ∨
    (x ≠ length ∧ x.Passes s ∧ memorySize ≤ (x.block s).toInt + (x.index s).toInt)

/-- The words other than the operands that the access reads or writes. -/
def touched : List Int :=
  [(x.block s).toInt - 2, (x.block s).toInt - 1] ++ if x = length then []
    else [(x.block s).toInt + (x.index s).toInt]

/-- The state after the access. One word of the memory changes: the place of the result on the
stack, or the word that is written. -/
def after : State :=
  match x with
  | length => { s with data := s.data.setIfInBounds (s.height - 1) (x.sizeWord s) }
  | read _ =>
    let element := s.word ((x.block s).toInt + (x.index s).toInt).toNat
    { s with data := s.data.setIfInBounds (s.height - 2) element, st := s.st - 1 }
  | update _ =>
    { s with
      data := s.data.setIfInBounds ((x.block s).toInt + (x.index s).toInt).toNat (x.value s), st :=
      s.st - 3 }

/-- How an access may end: it touches the heap only and changes one word, or it is refused and
changes none. -/
inductive Safe : EStateM.Result Stop State Unit → Prop
  | done : x.Passes s → (∀ n ∈ x.touched s, s.ht.toInt ≤ n ∧ n < memorySize) →
      Safe (.ok () (x.after s))
  | refused {f st} : ¬ x.Passes s → Safe (.error (.fault f) { s with st })

end HeapAccess

section Actions

variable {s : State} {a i w : Word} {array : Bool} {m n : Nat}

theorem State.Apart.st_eq (hs : s.Apart) : s.st = Word.ofNat s.height :=
  (Word.ofNat_toNat hs.base).symm

theorem State.Apart.height_le (hs : s.Apart) : (s.height : Int) ≤ s.ht.toInt := by
  have hbase := hs.base
  have hbelow := hs.below
  unfold State.height
  omega

theorem State.Apart.lower (hs : s.Apart) (hm : m ≤ s.height) :
    ({ s with st := Word.ofNat m } : State).Apart ∧ ({ s with st := Word.ofNat m } : State).height =
      m := by
  have hheight := hs.height_le
  have htop := hs.top
  have hmemory : memorySize = 65536 := rfl
  have hword : (Word.ofNat m).toInt = m := Word.toInt_ofNat (by omega)
  refine ⟨⟨hs.size, ?_, ?_, hs.heap, hs.top⟩, ?_⟩
  · exact hword ▸ Int.natCast_nonneg m
  · change (Word.ofNat m).toInt ≤ s.ht.toInt
    omega
  · change (Word.ofNat m).toInt.toNat = m
    omega

theorem getElem_eq_word (h : n < s.data.size) : s.data[n] = s.word n := by
  simp [State.word, h]

theorem getD_setIfInBounds {data : Array Word} (hm : m < data.size) :
    (data.setIfInBounds m w).getD n 0 = if n = m then w else data.getD n 0 := by
  by_cases hn : n = m
  · subst hn
    simp [hm]
  · simp [Array.getD_eq_getD_getElem?, Array.getElem?_setIfInBounds_ne (Ne.symm hn), hn]

theorem fetch_word (hs : s.Apart) (ha : a.toInt = n)
    (hn : n < memorySize) : fetch a s = .ok (s.word n) s := by
  have hsize : n < s.data.size := hs.size ▸ hn
  simp only [fetch, Word.index?_of_toInt ha hsize]
  exact congrArg (EStateM.Result.ok · s) (getElem_eq_word hsize)

theorem fetch_outside (hs : s.Apart)
    (ha : a.toInt < 0 ∨ memorySize ≤ a.toInt) : fetch a s = .error .crash s := by
  simp only [fetch, Word.index?_eq_none_of_toInt (hs.size ▸ ha)]

theorem put_word (hs : s.Apart) (ha : a.toInt = n) (hn : n < memorySize) :
    put a w s = .ok () { s with data := s.data.setIfInBounds n w } := by
  have hsize : n < s.data.size := hs.size ▸ hn
  simp only [put, Word.index?_of_toInt ha hsize, Array.setIfInBounds, hsize, dif_pos]

theorem put_outside (hs : s.Apart)
    (ha : a.toInt < 0 ∨ memorySize ≤ a.toInt) : put a w s = .error .crash s := by
  simp only [put, Word.index?_eq_none_of_toInt (hs.size ▸ ha)]

theorem pop_word (hs : s.Apart) (hm : s.height = m + 1) :
    pop s = .ok (s.word m) { s with st := Word.ofNat m } := by
  have hheight := hs.height_le
  have htop := hs.top
  have hsize : m < s.data.size := by
    rw [hs.size]
    omega
  have hst : s.st - 1 = Word.ofNat m := by
    rw [hs.st_eq, hm, ← Word.ofNat_add_one]
    exact Int64.add_sub_cancel _ _
  have hmemory : memorySize = 65536 := rfl
  have hfull : ¬ s.st ≤ 0 := by
    rw [Int64.le_iff_toInt_le, hs.st_eq, hm, Word.toInt_ofNat (by omega)]
    exact Int.not_le.mpr (by exact Int.natCast_pos.mpr m.succ_pos)
  rw [pop, if_neg hfull]
  simp only [hst, Word.index?_ofNat hsize (by omega)]
  exact congrArg (EStateM.Result.ok · _) (getElem_eq_word hsize)

theorem pop_empty (hs : s.Apart) (hm : s.height = 0) :
    pop s = .error (.fault .stackUnderflow) s := by
  apply pop_of_zero
  have hbase := hs.base
  unfold State.height at hm
  omega

theorem pop2_words (hs : s.Apart) (hm : s.height = m + 2) :
    pop2 s = .ok (s.word m, s.word (m + 1)) { s with st := Word.ofNat m } := by
  obtain ⟨hu, hheight⟩ := hs.lower (m := m + 1) (by omega)
  rw [pop2, EStateM.bind_of_ok (pop_word hs hm), EStateM.bind_of_ok (pop_word hu hheight)]
  rfl

theorem pop3_words (hs : s.Apart) (hm : s.height = m + 3) :
    pop3 s = .ok (s.word m, s.word (m + 1), s.word (m + 2)) { s with st := Word.ofNat m } := by
  obtain ⟨hu, hheight⟩ := hs.lower (m := m + 2) (by omega)
  obtain ⟨hv, hheight'⟩ := hs.lower (m := m + 1) (by omega)
  rw [pop3, EStateM.bind_of_ok (pop_word hs hm), EStateM.bind_of_ok (pop_word hu hheight),
    EStateM.bind_of_ok (pop_word hv hheight')]
  rfl

theorem pop_short {α : Type} {f : Word → Action α} (hs : s.Apart)
    (hf : ∀ m, s.height = m + 1 → ∃ st, f (s.word m) { s with st := Word.ofNat m } =
      .error (.fault .stackUnderflow) { s with st }) :
    ∃ st, (pop >>= f) s = .error (.fault .stackUnderflow) { s with st } := by
  cases hheight : s.height with
  | zero => exact ⟨s.st, EStateM.bind_of_error (pop_empty hs hheight)⟩
  | succ m =>
    rw [EStateM.bind_of_ok (pop_word hs hheight)]
    exact hf m hheight

theorem pop2_short (hs : s.Apart) (hm : s.height < 2) :
    ∃ st, pop2 s = .error (.fault .stackUnderflow) { s with st } := by
  refine pop_short hs fun m hheight => ?_
  obtain ⟨hu, hlower⟩ := hs.lower (m := m) (by omega)
  exact pop_short hu fun k hk => absurd hk (by omega)

theorem pop3_short (hs : s.Apart) (hm : s.height < 3) :
    ∃ st, pop3 s = .error (.fault .stackUnderflow) { s with st } := by
  refine pop_short hs fun m hheight => ?_
  obtain ⟨hu, hlower⟩ := hs.lower (m := m) (by omega)
  refine pop_short hu fun k hk => ?_
  obtain ⟨hv, hlower'⟩ := hu.lower (m := k) (by omega)
  exact pop_short hv fun j hj => absurd (hlower'.symm.trans hj) (by omega)

theorem push_word (hs : s.Apart) (hm : s.st = Word.ofNat m) (hroom : (m : Int) < s.ht.toInt) :
    push w s = .ok () { s with data := s.data.setIfInBounds m w, st := Word.ofNat (m + 1) } := by
  have htop := hs.top
  have hmemory : memorySize = 65536 := rfl
  have hsize : m < s.data.size := by
    rw [hs.size]
    omega
  have hfree : ¬ s.ht ≤ s.st := by
    rw [hm, Int64.le_iff_toInt_le, Word.toInt_ofNat (by omega)]
    omega
  rw [push, if_neg hfree]
  simp only [hm, Word.index?_ofNat hsize (by omega), Word.ofNat_add_one, Array.setIfInBounds, hsize,
    dif_pos]

/-- What comes behind a check that stops the machine. -/
theorem check_apply {α : Type} {c : Prop} [Decidable c] {f : Fault} {k : Unit → Action α} :
    (if c then fault f >>= k else k ()) s = if c then .error (.fault f) s else k () s := by
  split <;> rfl

/-- The check of the address as the machine makes it, against what it is for. -/
theorem header_check (hs : s.Apart) : (a - 2 < s.ht ∨ Word.ofNat s.data.size < a) ↔
    ¬ s.HasHeader a ∧ -2 ^ 63 + 2 ≤ a.toInt := by
  have hmemory : memorySize = 65536 := rfl
  have hheap := hs.heap
  have htop := hs.top
  have hlow := a.le_toInt
  rw [hs.size, Int64.lt_iff_toInt_lt, Int64.lt_iff_toInt_lt, Word.toInt_ofNat (by decide),
    a.toInt_sub_of_toInt (n := 2) rfl]
  unfold State.HasHeader
  split <;> omega

/-- An action on the block at `a`, behind the check of the address. -/
def atBlock {α : Type} (a : Word) (f : Fault) (rest : Action α) : Action α := do
  if a = 0 then fault .nullPointer
  let ht ← look State.ht
  let size ← look fun s => Word.ofNat s.data.size
  if a - 2 < ht ∨ size < a then fault f
  rest

/-- The check of the address lets the two least words pass. -/
theorem atBlock_of_passing {α : Type} {f : Fault} {rest : Action α} (hs : s.Apart)
    (ha : s.HasHeader a ∨ a.toInt < -2 ^ 63 + 2) : atBlock a f rest s = rest s := by
  have hnull : ¬ a = 0 := by
    rintro rfl
    have hzero : (0 : Word).toInt = 0 := rfl
    have hheap := hs.heap
    rw [State.HasHeader, hzero] at ha
    omega
  have hcheck : ¬ (a - 2 < s.ht ∨ Word.ofNat s.data.size < a) := by
    rw [header_check hs]
    rintro ⟨hheader, hlow⟩
    rcases ha with ha | ha
    · exact hheader ha
    · omega
  rw [atBlock, if_neg hnull]
  change ((if a - 2 < s.ht ∨ Word.ofNat s.data.size < a then _ else _ : Action α) s) = _
  rw [if_neg hcheck]

theorem atBlock_of_refused {α : Type} {f : Fault} {k : Action α} (hs : s.Apart)
    (hheader : ¬ s.HasHeader a) (ha : -2 ^ 63 + 2 ≤ a.toInt) :
    ∃ f', atBlock a f k s = .error (.fault f') s := by
  unfold atBlock
  by_cases hnull : a = 0
  · rw [if_pos hnull]
    exact ⟨_, rfl⟩
  · rw [if_neg hnull]
    change ∃ f', ((if a - 2 < s.ht ∨ Word.ofNat s.data.size < a then _ else _ : Action α) s) =
      .error (.fault f') s
    rw [if_pos ((header_check hs).mpr ⟨hheader, ha⟩)]
    exact ⟨_, rfl⟩

theorem fetch_header (hs : s.Apart) (hheader : s.HasHeader a) :
    fetch (a - 2) s = .ok (s.word (a.toInt - 2).toNat) s ∧
      fetch (a - 1) s = .ok (s.word (a.toInt - 1).toNat) s := by
  have hmemory : memorySize = 65536 := rfl
  have hheap := hs.heap
  obtain ⟨hlow, hhigh⟩ := hheader
  have hclass : (a - 2).toInt = ((a.toInt - 2).toNat : Nat) := by
    rw [a.toInt_sub_of_toInt (n := 2) rfl, if_neg (by omega)]
    omega
  have hsize : (a - 1).toInt = ((a.toInt - 1).toNat : Nat) := by
    rw [a.toInt_sub_of_toInt (n := 1) rfl, if_neg (by omega)]
    omega
  exact ⟨fetch_word hs hclass (by omega), fetch_word hs hsize (by omega)⟩

/-- What passes for a header before one of the two least words lies outside the memory. -/
theorem fetch_low (hs : s.Apart) (ha : a.toInt < -2 ^ 63 + 2) :
    fetch (a - 2) s = .error .crash s ∧ fetch (a - 1) s = .error .crash s := by
  have hmemory : memorySize = 65536 := rfl
  have hlow := a.le_toInt
  refine ⟨fetch_outside hs (.inr ?_), fetch_outside hs ?_⟩
  · rw [a.toInt_sub_of_toInt (n := 2) rfl, if_pos (by omega)]
    omega
  · rw [a.toInt_sub_of_toInt (n := 1) rfl]
    split <;> omega

end Actions

namespace HeapAccess

variable {x : HeapAccess} {s : State} {a i v : Word} {array : Bool}

/-- The rest of an access, once the address has been checked. -/
def indexed (array : Bool) (a i : Word) : Action Word := do
  if array then
    if (← fetch (a - 2)) ≠ arrayClass then fault (.notAnArray a)
  let count ← fetch (a - 1)
  if i < 0 ∨ count ≤ i then fault (.indexOutOfRange i count)
  return a + i

def measured (a : Word) : Action Word := do
  if (← fetch (a - 2)) ≠ arrayClass then fault (.notAnArray a)
  fetch (a - 1)

theorem element_eq : element a i array = atBlock a (.notABlock a) (indexed array a i) := rfl

theorem arrayLength_eq : arrayLength a = atBlock a (.notAnArray a) (measured a) := rfl

/-- What the primitive does with its operands once they are popped. -/
def action : HeapAccess → Word → Word → Word → Action Unit
  | length, a, _, _ => do push (← arrayLength a)
  | read array, a, i, _ => do push (← fetch (← element a i array))
  | update array, a, i, v => do put (← element a i array) v

theorem primitive_read :
    primitive (read array).prim = pop2 >>= fun y => (read array).action y.1 y.2 0 := by
  cases array <;> rfl

theorem primitive_update :
    primitive (update array).prim = pop3 >>= fun y => (update array).action y.1 y.2.1 y.2.2 := by
  cases array <;> rfl

theorem primitive_of_operands (hs : s.Apart) (h : x.operands ≤ s.height) :
    primitive x.prim s =
      x.action (x.block s) (x.index s) (x.value s)
      { s with st := Word.ofNat (s.height - x.operands) } := by
  have hheight : s.height = s.height - x.operands + x.operands := by omega
  cases x with
  | length => exact EStateM.bind_of_ok (pop_word hs hheight)
  | read array => rw [primitive_read, EStateM.bind_of_ok (pop2_words hs hheight)]; rfl
  | update array => rw [primitive_update, EStateM.bind_of_ok (pop3_words hs hheight)]; rfl

theorem primitive_of_short (hs : s.Apart) (h : s.height < x.operands) :
    ∃ st, primitive x.prim s = .error (.fault .stackUnderflow) { s with st } := by
  cases x with
  | length => exact ⟨s.st, EStateM.bind_of_error (pop_empty hs (Nat.lt_one_iff.mp h))⟩
  | read array =>
    obtain ⟨st, hst⟩ := pop2_short hs h
    exact ⟨st, by rw [primitive_read, EStateM.bind_of_error hst]⟩
  | update array =>
    obtain ⟨st, hst⟩ := pop3_short hs h
    exact ⟨st, by rw [primitive_update, EStateM.bind_of_error hst]⟩

theorem element_of_header (hs : s.Apart) (hheader : s.HasHeader a) : element a i array s =
    if array = true ∧ s.word (a.toInt - 2).toNat ≠ arrayClass then .error (.fault (.notAnArray a)) s
    else if i.toInt < 0 ∨ (s.word (a.toInt - 1).toNat).toInt ≤ i.toInt then
      .error (.fault (.indexOutOfRange i (s.word (a.toInt - 1).toNat))) s
    else .ok (a + i) s := by
  obtain ⟨hclass, hsize⟩ := fetch_header hs hheader
  have hindex : (do
      let count ← fetch (a - 1)
      if i < 0 ∨ count ≤ i then fault (.indexOutOfRange i count)
      return a + i : Action Word) s =
      if i.toInt < 0 ∨ (s.word (a.toInt - 1).toNat).toInt ≤ i.toInt then
        .error (.fault (.indexOutOfRange i (s.word (a.toInt - 1).toNat))) s
      else .ok (a + i) s := by
    rw [EStateM.bind_of_ok hsize]
    simp only [check_apply, Word.lt_zero, Int64.le_iff_toInt_le]
    rfl
  rw [element_eq, atBlock_of_passing hs (.inl hheader), indexed]
  cases array with
  | false => simpa using hindex
  | true =>
    simp only [if_true, true_and]
    rw [EStateM.bind_of_ok hclass, check_apply]
    exact congrArg (ite _ _ ·) hindex

theorem arrayLength_of_header (hs : s.Apart) (hheader : s.HasHeader a) : arrayLength a s =
    if s.word (a.toInt - 2).toNat ≠ arrayClass then .error (.fault (.notAnArray a)) s
    else .ok (s.word (a.toInt - 1).toNat) s := by
  obtain ⟨hclass, hsize⟩ := fetch_header hs hheader
  rw [arrayLength_eq, atBlock_of_passing hs (.inl hheader), measured, EStateM.bind_of_ok hclass,
    check_apply]
  exact congrArg (ite _ _ ·) hsize

theorem action_of_low (hs : s.Apart)
    (ha : a.toInt < -2 ^ 63 + 2) : x.action a i v s = .error .crash s := by
  obtain ⟨hclass, hsize⟩ := fetch_low hs ha
  have helement (array : Bool) : element a i array s = .error .crash s := by
    rw [element_eq, atBlock_of_passing hs (.inr ha)]
    cases array with
    | true => exact EStateM.bind_of_error hclass
    | false => exact EStateM.bind_of_error hsize
  have hlength : arrayLength a s = .error .crash s := by
    rw [arrayLength_eq, atBlock_of_passing hs (.inr ha)]
    exact EStateM.bind_of_error hclass
  cases x with
  | length => exact EStateM.bind_of_error hlength
  | read array => exact EStateM.bind_of_error (helement array)
  | update array => exact EStateM.bind_of_error (helement array)

theorem action_of_refused (hs : s.Apart) (hheader : ¬ s.HasHeader a) (ha : -2 ^ 63 + 2 ≤ a.toInt) :
    ∃ f, x.action a i v s = .error (.fault f) s := by
  cases x with
  | length =>
    obtain ⟨f, hf⟩ := atBlock_of_refused (f := .notAnArray a) (k := measured a) hs hheader ha
    exact ⟨f, EStateM.bind_of_error hf⟩
  | read array =>
    obtain ⟨f, hf⟩ := atBlock_of_refused (f := .notABlock a) (k := indexed array a i) hs hheader ha
    exact ⟨f, EStateM.bind_of_error hf⟩
  | update array =>
    obtain ⟨f, hf⟩ := atBlock_of_refused (f := .notABlock a) (k := indexed array a i) hs hheader ha
    exact ⟨f, EStateM.bind_of_error hf⟩

theorem touched_in_heap (hheader : s.HasHeader (x.block s))
    (hinside : x ≠ length → 0 ≤ (x.index s).toInt ∧
      (x.block s).toInt + (x.index s).toInt < memorySize) :
    ∀ n ∈ x.touched s, s.ht.toInt ≤ n ∧ n < memorySize := by
  obtain ⟨hlow, hhigh⟩ := hheader
  have hheaderWords (n : Int) (hn : n = (x.block s).toInt - 2 ∨ n = (x.block s).toInt - 1) :
      s.ht.toInt ≤ n ∧ n < memorySize := by omega
  intro n hn
  unfold touched at hn
  split at hn
  · exact hheaderWords n (by simpa using hn)
  · rename_i hx
    obtain ⟨hindex, helement⟩ := hinside hx
    have hword : n = (x.block s).toInt - 2 ∨ n = (x.block s).toInt - 1 ∨
        n = (x.block s).toInt + (x.index s).toInt := by
      simpa using hn
    omega

section Checked

variable {m : Nat} (hu : ({ s with st := Word.ofNat m } : State).Apart)

include hu

theorem element_of_passes (hx : x ≠ length) (h : x.Passes s) :
    element (x.block s) (x.index s) x.needsArray { s with st := Word.ofNat m } =
      .ok (x.block s + x.index s) { s with st := Word.ofNat m } := by
  have hindex := h.index hx
  rw [element_of_header hu h.header, if_neg fun hc => hc.2 (h.array hc.1), if_neg]
  change ¬ ((x.index s).toInt < 0 ∨ (x.sizeWord s).toInt ≤ (x.index s).toInt)
  omega

theorem action_of_not_passes (hoperands : x.operands ≤ s.height) (hheader : s.HasHeader (x.block s))
    (h : ¬ x.Passes s) :
    ∃ f, x.action (x.block s) (x.index s) (x.value s) { s with st := Word.ofNat m } =
      .error (.fault f) { s with st := Word.ofNat m } := by
  have helement (hx : x ≠ length) :
      ∃ f, element (x.block s) (x.index s) x.needsArray { s with st := Word.ofNat m } =
        .error (.fault f) { s with st := Word.ofNat m } := by
    rw [element_of_header hu hheader]
    split
    · exact ⟨_, rfl⟩
    · rename_i harray
      split
      · exact ⟨_, rfl⟩
      · rename_i hindex
        have hindex' : ¬ ((x.index s).toInt < 0 ∨ (x.sizeWord s).toInt ≤ (x.index s).toInt) :=
          hindex
        exact absurd ⟨hoperands, hheader, fun ha => by_contra fun hc => harray ⟨ha, hc⟩, fun _ => by
          omega⟩ h
  cases x with
  | length =>
    have hclass : length.classWord s ≠ arrayClass := fun hclass =>
      h ⟨hoperands, hheader, fun _ => hclass, fun hx => absurd rfl hx⟩
    exact ⟨_, EStateM.bind_of_error ((arrayLength_of_header hu hheader).trans (if_pos hclass))⟩
  | read array =>
    obtain ⟨f, hf⟩ := helement HeapAccess.noConfusion
    exact ⟨f, EStateM.bind_of_error hf⟩
  | update array =>
    obtain ⟨f, hf⟩ := helement HeapAccess.noConfusion
    exact ⟨f, EStateM.bind_of_error hf⟩

end Checked

theorem crash_of_escapes (hs : s.Apart) (h : x.Escapes s) :
    ∃ t, primitive x.prim s = .error .crash t := by
  rcases h with ⟨hoperands, hlow⟩ | ⟨hx, hpasses, houtside⟩
  · obtain ⟨hu, -⟩ := hs.lower (m := s.height - x.operands) (by omega)
    exact ⟨_, (primitive_of_operands hs hoperands).trans (action_of_low hu hlow)⟩
  · obtain ⟨hu, -⟩ := hs.lower (m := s.height - x.operands) (by omega)
    have hheap := hs.heap
    have hlow := hpasses.header.1
    have helement := element_of_passes hu hx hpasses
    have hleaves := Word.add_outside (by omega) (hpasses.index hx).1 houtside
    rw [primitive_of_operands hs hpasses.operands]
    cases x with
    | length => exact absurd rfl hx
    | read array =>
      exact ⟨_,
        (EStateM.bind_of_ok helement).trans (EStateM.bind_of_error (fetch_outside hu hleaves))⟩
    | update array => exact ⟨_, (EStateM.bind_of_ok helement).trans (put_outside hu hleaves)⟩

theorem after_of_passes (hs : s.Apart) (hpasses : x.Passes s) (h : ¬ x.Escapes s) :
    primitive x.prim s = .ok () (x.after s) := by
  have hmemory : memorySize = 65536 := rfl
  have hheap := hs.heap
  have hlow := hpasses.header.1
  have hoperands := hpasses.operands
  obtain ⟨hu, -⟩ := hs.lower (m := s.height - x.operands) (by omega)
  -- The address of the element does not wrap around, since the element is in the memory.
  have hat (hx : x ≠ length) :
      (x.block s + x.index s).toInt = ((x.block s).toInt + (x.index s).toInt).toNat ∧
      ((x.block s).toInt + (x.index s).toInt).toNat < memorySize := by
    have hinside := Int.not_le.mp fun houtside => h (.inr ⟨hx, hpasses, houtside⟩)
    have hindex := (hpasses.index hx).1
    rw [Word.toInt_add (by omega) (by omega)]
    omega
  have hst (k : Nat) (hk : k ≤ s.height) : Word.ofNat (s.height - k) = s.st - Word.ofNat k := by
    rw [Word.ofNat_sub hk, ← hs.st_eq]
  rw [primitive_of_operands hs hoperands]
  cases x with
  | length =>
    have hone : 1 ≤ s.height := hoperands
    have hlength :=
      (arrayLength_of_header hu hpasses.header).trans (if_neg fun hc => hc (hpasses.array rfl))
    refine (EStateM.bind_of_ok hlength).trans ((push_word hu rfl ?_).trans ?_)
    · exact Int.lt_of_lt_of_le (Int.ofNat_lt.mpr (Nat.sub_lt hone Nat.one_pos)) hs.height_le
    · rw [operands, Nat.sub_add_cancel hone, ← hs.st_eq]
      rfl
  | read array =>
    have htwo : 2 ≤ s.height := hoperands
    obtain ⟨htoInt, hinside⟩ := hat HeapAccess.noConfusion
    have helement := element_of_passes hu HeapAccess.noConfusion hpasses
    refine (EStateM.bind_of_ok helement).trans
      ((EStateM.bind_of_ok (fetch_word hu htoInt hinside)).trans
      ((push_word hu rfl ?_).trans ?_))
    · exact Int.lt_of_lt_of_le (Int.ofNat_lt.mpr (Nat.sub_lt (by omega) Nat.two_pos)) hs.height_le
    · have hsum : s.height - 2 + 1 = s.height - 1 := by omega
      rw [operands, hsum, hst 1 (by omega)]
      rfl
  | update array =>
    obtain ⟨htoInt, hinside⟩ := hat HeapAccess.noConfusion
    have helement := element_of_passes hu HeapAccess.noConfusion hpasses
    refine (EStateM.bind_of_ok helement).trans ((put_word hu htoInt hinside).trans ?_)
    rw [hst _ hoperands]
    rfl

theorem refused_of_not_passes (hs : s.Apart) (hpasses : ¬ x.Passes s) (h : ¬ x.Escapes s) :
    ∃ f st, primitive x.prim s = .error (.fault f) { s with st } := by
  by_cases hoperands : x.operands ≤ s.height
  · obtain ⟨hu, -⟩ := hs.lower (m := s.height - x.operands) (by omega)
    rw [primitive_of_operands hs hoperands]
    by_cases hheader : s.HasHeader (x.block s)
    · obtain ⟨f, hf⟩ := action_of_not_passes hu hoperands hheader hpasses
      exact ⟨f, _, hf⟩
    · have hlow : -2 ^ 63 + 2 ≤ (x.block s).toInt :=
        Int.not_lt.mp fun hlow => h (.inl ⟨hoperands, hlow⟩)
      obtain ⟨f, hf⟩ := action_of_refused hu hheader hlow
      exact ⟨f, _, hf⟩
  · obtain ⟨st, hst⟩ := primitive_of_short hs (Nat.not_le.mp hoperands)
    exact ⟨_, st, hst⟩

/-- An access of a primitive leaves the memory exactly at the two least addresses and behind a false
size. Otherwise it is refused, or it touches words of the heap only and changes one word. -/
theorem escapes_or_safe (x : HeapAccess) {s : State} (hs : s.Apart) :
    ((∃ t, primitive x.prim s = .error .crash t) ↔ x.Escapes s) ∧
      (¬ x.Escapes s → x.Safe s (primitive x.prim s)) := by
  have hsafe (h : ¬ x.Escapes s) : x.Safe s (primitive x.prim s) := by
    by_cases hpasses : x.Passes s
    · rw [after_of_passes hs hpasses h]
      refine .done hpasses (touched_in_heap hpasses.header fun hx => ⟨(hpasses.index hx).1, ?_⟩)
      exact Int.not_le.mp fun houtside => h (.inr ⟨hx, hpasses, houtside⟩)
    · obtain ⟨f, st, hf⟩ := refused_of_not_passes hs hpasses h
      rw [hf]
      exact .refused hpasses
  refine ⟨⟨?_, crash_of_escapes hs⟩, hsafe⟩
  rintro ⟨t, ht⟩
  by_contra h
  have hfalse := hsafe h
  rw [ht] at hfalse
  cases hfalse

/-- A block at 65535 with a size of 70000, and on the stack its address and an index. -/
def forgedSize (i : Word) : State :=
  let memory := Array.replicate memorySize 0
  { State.initial none .accept with
    data := ((memory.setIfInBounds 65534 70000).setIfInBounds 0 65535).setIfInBounds 1 i, st :=
    2, ht := 65533 }

theorem forgedSize_apart (i : Word) : (forgedSize i).Apart where
  size := by simp [forgedSize]
  base := (by decide : 0 ≤ (2 : Word).toInt)
  below := (by decide : (2 : Word).toInt ≤ (65533 : Word).toInt)
  heap := (by decide : 0 < (65533 : Word).toInt)
  top := (by decide : (65533 : Word).toInt ≤ memorySize)

theorem forgedSize_operands (i : Word) :
    (read false).block (forgedSize i) = 65535 ∧ (read false).index (forgedSize i) = i ∧
      (read false).sizeWord (forgedSize i) = 70000 := by
  have hblock : (forgedSize i).word 0 = 65535 := by simp [State.word, forgedSize, memorySize]
  have hindex : (forgedSize i).word 1 = i := by simp [State.word, forgedSize, memorySize]
  have hsize : (forgedSize i).word 65534 = 70000 := by simp [State.word, forgedSize, memorySize]
  refine ⟨hblock, hindex, ?_⟩
  change (forgedSize i).word (((forgedSize i).word 0).toInt - 1).toNat = 70000
  rw [hblock]
  exact hsize

/-- The first word of the block is the last of the memory, so that there is no second one to
read. -/
theorem forgedSize_escapes : (forgedSize 0).Apart ∧ (forgedSize 1).Apart ∧
    (read false).Safe (forgedSize 0) (primitive (read false).prim (forgedSize 0)) ∧
    ∃ t, primitive (read false).prim (forgedSize 1) = .error .crash t := by
  have hpasses : (read false).Passes (forgedSize 1) := by
    obtain ⟨hblock, hindex, hsize⟩ := forgedSize_operands 1
    refine ⟨by decide, ?_, Bool.noConfusion, fun _ => ?_⟩
    · rw [hblock]
      exact ⟨by decide, by decide⟩
    · rw [hindex, hsize]
      decide
  have hescapes : (read false).Escapes (forgedSize 1) := by
    obtain ⟨hblock, hindex, -⟩ := forgedSize_operands 1
    refine .inr ⟨HeapAccess.noConfusion, hpasses, ?_⟩
    rw [hblock, hindex]
    decide
  have hstays : ¬ (read false).Escapes (forgedSize 0) := by
    obtain ⟨hblock, hindex, -⟩ := forgedSize_operands 0
    rw [Escapes, hblock, hindex]
    rintro (⟨-, hlow⟩ | ⟨-, -, houtside⟩)
    · exact absurd hlow (by decide)
    · exact absurd houtside (by decide)
  have hsafe := (escapes_or_safe (read false) (forgedSize_apart 0)).2 hstays
  have hcrash := (escapes_or_safe (read false) (forgedSize_apart 1)).1.mpr hescapes
  exact ⟨forgedSize_apart 0, forgedSize_apart 1, hsafe, hcrash⟩

end HeapAccess

section Run

variable {code : Code} {n steps : Nat} {s t : State} {a : Fin code.size}

theorem run_of_ok (ha : s.cp.index? code.size = some a) (hop : (code.instr a).op ≠ Op.halt.number)
    (he : execute code.size (code.instr a) s = .ok () t) :
    run code (n + 1) steps s = run code n (steps + 1) t := by
  simp only [run, ha, if_neg hop, he]

theorem run_of_error {cause : Stop} (ha : s.cp.index? code.size = some a)
    (hop : (code.instr a).op ≠ Op.halt.number)
    (he : execute code.size (code.instr a) s = .error cause t) :
    run code (n + 1) steps s = ⟨t, steps + 1, .stopped cause⟩ := by
  simp only [run, ha, if_neg hop, he]

end Run

/-- `LOADL -9223372036854775807` and `CALL arraylen` -/
def measuresLeast : Code := #[.of .loadl 0 .zr (-9223372036854775807), .of .call 0 .pb 32]

theorem measuresLeast_loads :
    ∃ s, s.Apart ∧ s.height = 1 ∧ s.word 0 = -9223372036854775807 ∧ s.cp = 1 ∧
      execute 2 (.of .loadl 0 .zr (-9223372036854775807)) (.initial none .accept) = .ok () s := by
  have hpush :=
    push_word (w := -9223372036854775807) (initial_apart none .accept) (m := 0) rfl (by decide)
  refine ⟨_, ⟨?_, ?_, ?_, ?_, ?_⟩, ?_, ?_, ?_, EStateM.bind_of_ok (EStateM.bind_of_ok hpush)⟩
  · simp [State.initial]
  · decide
  · decide
  · decide
  · decide
  · rfl
  · simp [State.word, State.initial, memorySize]
  · rfl

/-- The address passes for that of a block, and the header is looked for outside the memory. -/
theorem measuresLeast_crashes :
    (run measuresLeast 2 0 (.initial none .accept)).ending = .stopped .crash := by
  obtain ⟨s, hs, hheight, hword, hcp, hload⟩ := measuresLeast_loads
  have hescapes : HeapAccess.length.Escapes s := by
    refine .inl ⟨by rw [hheight]; decide, ?_⟩
    rw [HeapAccess.block, hheight]
    change (s.word 0).toInt < _
    rw [hword]
    decide
  obtain ⟨t, ht⟩ := HeapAccess.crash_of_escapes hs hescapes
  have hcall : execute 2 (.of .call 0 .pb 32) s = .error .crash t :=
    EStateM.bind_of_error (EStateM.bind_of_error ht)
  have hstart : (State.initial none .accept).cp.index? measuresLeast.size = some ⟨0, by
      decide⟩ := by
    decide
  have hnext : s.cp.index? measuresLeast.size = some ⟨1, by decide⟩ := by
    rw [hcp]
    decide
  have hfirst :
      execute measuresLeast.size (measuresLeast.instr ⟨0, by decide⟩) (.initial none .accept) =
        .ok () s := hload
  have hsecond : execute measuresLeast.size (measuresLeast.instr ⟨1, by decide⟩) s =
      .error .crash t := hcall
  rw [run_of_ok hstart (by decide) hfirst, run_of_error hnext (by decide) hsecond]

end Machine

end MiniJava
