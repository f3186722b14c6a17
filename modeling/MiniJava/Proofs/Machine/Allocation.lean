import MiniJava.Proofs.Machine.Return
/-!
Allocation. A block is taken from below the heap top if it fits above the stack, header included,
and nothing else is changed. As the heap top only ever moves down and the words above it change by
stores alone, the blocks of a run lie apart from each other and keep their headers as long as no
store hits one.
-/
namespace MiniJava.Machine

/-- There is no block of this size to be had: the size is negative, or the block and its header
would meet the stack. -/
def State.Refuses (s : State) (size : Word) : Prop :=
  size.toInt < 0 ∨ s.ht.toInt - size.toInt - 2 ≤ s.st.toInt

/-- The state `t` is `s` with a new block at `a`, right below the heap as it was: a header with
class and size, and zeros. -/
structure Allocated (s t : State) (cls size a : Word) : Prop where
  address : a.toInt = s.ht.toInt - size.toInt
  low : 3 ≤ a.toInt
  top : t.ht.toInt = a.toInt - 2
  room : s.st.toInt < t.ht.toInt
  classWord : t.word (a.toInt - 2).toNat = cls
  sizeWord : t.word (a.toInt - 1).toNat = size
  zeros : ∀ n : Nat, a.toInt ≤ n → n < a.toInt + size.toInt → t.word n = 0
  others : ∀ n : Nat, n < a.toInt - 2 ∨ a.toInt + size.toInt ≤ n → t.word n = s.word n
  rest : t = { s with data := t.data, ht := t.ht }

/-- How an allocation ends. -/
inductive Allocates (s : State) (cls size : Word) : EStateM.Result Stop State Word → Prop
  | refused {f : Fault} : s.Refuses size → Allocates s cls size (.error (.fault f) s)
  | done {t : State} {a : Word} : ¬ s.Refuses size → Allocated s t cls size a →
      Allocates s cls size (.ok a t)

section Exact

variable {s : State} {cls size a : Word} {m n : Nat}

theorem State.Apart.set (hs : s.Apart) (m : Nat) (w : Word) :
    ({ s with data := s.data.setIfInBounds m w } : State).Apart :=
  ⟨Array.size_setIfInBounds.trans hs.size, hs.base, hs.below, hs.heap, hs.top⟩

theorem clear_words (hs : s.Apart) (ha : a.toInt = m) (hroom : m + n ≤ memorySize) :
    clear n a s = .ok () { s with data := State.fill s.data m (List.replicate n 0) } := by
  induction n generalizing s a m with
  | zero => rfl
  | succ n ih =>
    have hmemory : memorySize = 65536 := rfl
    have hone : (1 : Word).toInt = 1 := rfl
    have hput := put_word (w := 0) hs ha (by omega)
    have hnext : (a + 1).toInt = (m + 1 : Nat) := by
      rw [Word.toInt_add (by omega) (by omega), ha, hone]
      rfl
    rw [clear, EStateM.bind_of_ok hput, ih (hs.set m 0) hnext (by omega), List.replicate_succ]
    rfl

/-- Both checks of an allocation are made before anything changes. -/
theorem allocate_of_refuses (hs : s.Apart) (h : s.Refuses size) (cls : Word) :
    ∃ f, allocate cls size s = .error (.fault f) s := by
  unfold allocate
  by_cases hneg : size < 0
  · rw [if_pos hneg]
    exact ⟨_, rfl⟩
  · rw [if_neg hneg]
    rw [Word.lt_zero] at hneg
    have hfull : s.ht - size - 2 ≤ s.st := by
      rw [Int64.le_iff_toInt_le, hs.toInt_room (by omega)]
      exact h.resolve_left hneg
    change ∃ f, ((if s.ht - size - 2 ≤ s.st then _ else _ : Action Word) s) = .error (.fault f) s
    rw [if_pos hfull]
    exact ⟨_, rfl⟩

/-- A block of `n` words whose header is at `m` is written from its header on. -/
theorem allocate_words (hs : s.Apart) (hn : size.toInt = n) (hm : s.ht.toInt = m + 2 + n)
    (hroom : s.st.toInt < m) :
    allocate cls size s = .ok (Word.ofNat (m + 2))
      { s with
        data := State.fill s.data m (cls :: size :: List.replicate n 0), ht := Word.ofNat m } := by
  have hmemory : memorySize = 65536 := rfl
  have htop := hs.top
  have hbase := hs.base
  have hsize : ¬ size < 0 := by
    rw [Word.lt_zero]
    omega
  have hfree : ¬ s.ht - size - 2 ≤ s.st := by
    rw [Int64.le_iff_toInt_le, hs.toInt_room (by omega)]
    omega
  have hheader : s.ht - (size + 2) = Word.ofNat m := by
    have hassoc : s.ht - (size + 2) = s.ht - size - 2 := by grind
    have hint : (s.ht - size - 2).toInt = m := by
      rw [hs.toInt_room (by omega)]
      omega
    rw [hassoc, ← Word.ofNat_toNat (w := s.ht - size - 2) (by omega), hint]
    rfl
  have hfirst : (Word.ofNat m).toInt = m := Word.toInt_ofNat (by omega)
  have hsecond : (Word.ofNat m + 1).toInt = (m + 1 : Nat) := by
    rw [Word.ofNat_add_one, Word.toInt_ofNat (by omega)]
  have hthird : Word.ofNat m + 2 = Word.ofNat (m + 2) := (Word.ofNat_add m 2).symm
  have hcount : size.toInt.toNat = n := by omega
  -- The heap top is lowered first, and what is written then lies above it.
  have hu := Guarded.taken guarded_apart hs hsize hfree
  rw [hheader] at hu
  have hcls := put_word (w := cls) hu hfirst (by omega)
  have hsizeWord := put_word (w := size) (hu.set m cls) hsecond (by omega)
  have hzeros :=
    clear_words ((hu.set m cls).set (m + 1) size) (Word.toInt_ofNat (n := m + 2) (by omega))
    (n := n) (by omega)
  unfold allocate
  rw [if_neg hsize]
  change ((if s.ht - size - 2 ≤ s.st then _ else _ : Action Word) s) = _
  rw [if_neg hfree, hheader, hcount, hthird]
  exact (EStateM.bind_of_ok hcls).trans
    ((EStateM.bind_of_ok hsizeWord).trans (EStateM.bind_of_ok hzeros))

theorem allocate_of_room (hs : s.Apart) (h : ¬ s.Refuses size) (cls : Word) :
    ∃ t a, allocate cls size s = .ok a t ∧ Allocated s t cls size a := by
  have hmemory : memorySize = 65536 := rfl
  have htop := hs.top
  have hbase := hs.base
  unfold State.Refuses at h
  obtain ⟨n, hn⟩ : ∃ n : Nat, size.toInt = n := ⟨size.toInt.toNat, by omega⟩
  obtain ⟨m, hm⟩ : ∃ m : Nat, s.ht.toInt = m + 2 + n := ⟨(s.ht.toInt - 2 - n).toNat, by omega⟩
  refine ⟨_, _, allocate_words hs hn hm (by omega), ?_⟩
  have ha : (Word.ofNat (m + 2)).toInt = (m + 2 : Nat) := Word.toInt_ofNat (by omega)
  have htop' : (Word.ofNat m).toInt = m := Word.toInt_ofNat (by omega)
  have hlength : m + (cls :: size :: List.replicate n (0 : Word)).length ≤ s.data.size := by
    rw [hs.size, List.length_cons, List.length_cons, List.length_replicate]
    omega
  have hword (k : Nat) :
      ({ s with
        data := State.fill s.data m (cls :: size :: List.replicate n 0), ht := Word.ofNat m } :
        State).word k = _ := getD_fill hlength
  constructor
  · omega
  · omega
  · change (Word.ofNat m).toInt = _
    omega
  · change s.st.toInt < (Word.ofNat m).toInt
    omega
  · have hindex : ((Word.ofNat (m + 2)).toInt - 2).toNat = m := by omega
    rw [hindex, hword]
    simp
  · have hindex : ((Word.ofNat (m + 2)).toInt - 1).toNat = m + 1 := by omega
    rw [hindex, hword]
    simp
  · intro k hlow hhigh
    obtain ⟨r, rfl⟩ : ∃ r, k = m + (r + 2) := ⟨k - m - 2, by omega⟩
    have hr : r < n := by omega
    rw [hword]
    simp [hr]
  · intro k hk
    rw [hword]
    by_cases hlow : m ≤ k
    · rw [if_pos hlow]
      exact List.getD_eq_default _ _ (by
        rw [List.length_cons, List.length_cons, List.length_replicate]
        omega)
    · exact if_neg hlow
  · rfl

theorem allocate_allocates (hs : s.Apart) (cls size : Word) :
    Allocates s cls size (allocate cls size s) := by
  by_cases h : s.Refuses size
  · obtain ⟨f, hf⟩ := allocate_of_refuses hs h cls
    rw [hf]
    exact .refused h
  · obtain ⟨t, a, ht, hallocated⟩ := allocate_of_room hs h cls
    rw [ht]
    exact .done h hallocated

end Exact

/-- A block of the heap: its address and what its header holds. -/
structure HeapBlock where
  address : Word
  cls : Word
  size : Word
  deriving DecidableEq, Repr

namespace HeapBlock

variable (b : HeapBlock)

/-- The words of the block, its header included. -/
def Covers (n : Int) : Prop := b.address.toInt - 2 ≤ n ∧ n < b.address.toInt + b.size.toInt

def Disjoint (c : HeapBlock) : Prop := ∀ n, b.Covers n → ¬ c.Covers n

def IsHeader (n : Int) : Prop := n = b.address.toInt - 2 ∨ n = b.address.toInt - 1

/-- The block lies in the heap of the state, with its header in place. -/
structure Held (s : State) : Prop where
  low : 3 ≤ b.address.toInt
  heap : s.ht.toInt ≤ b.address.toInt - 2
  classWord : s.word (b.address.toInt - 2).toNat = b.cls
  sizeWord : s.word (b.address.toInt - 1).toNat = b.size

end HeapBlock

/-- The primitives that take a block: of class 0, of a class from the stack, or an array. -/
inductive Allocation where
  | plain
  | object
  | array
  deriving DecidableEq, Repr

namespace Allocation

def prim : Allocation → Prim
  | plain => .alloc
  | object => .newobj
  | array => .newarr

/-- The number of words that are taken from the stack. -/
def operands : Allocation → Nat
  | plain | array => 1
  | object => 2

def classWord (s : State) : Allocation → Word
  | plain => 0
  | object => s.word (s.height - 2)
  | array => arrayClass

def sizeWord (s : State) : Word := s.word (s.height - 1)

end Allocation

/-- The instruction is an allocation that succeeds. The address of the block is the word that it
leaves on the stack. -/
inductive Takes (size : Nat) (i : Instr) (s : State) : HeapBlock → Prop
  | intro (x : Allocation) {t : State} : i.called? = some x.prim → execute size i s = .ok () t →
    Takes size i s ⟨t.word (t.height - 1), x.classWord s, Allocation.sizeWord s⟩

/-- The address at which an instruction stores a word: `STORE`, `STOREI`, and the updates of arrays
and fields. -/
inductive Target (size : Nat) (i : Instr) (s : State) : Word → Prop
  | store : Op.ofNumber? i.op = some .store →
    Target size i s (regValue size { s with st := s.st - 1 } (Reg.ofNumber? i.r) + i.d)
  | storei : Op.ofNumber? i.op = some .storei → Target size i s (s.word (s.height - 1))
  | update (array : Bool) : i.called? = some (HeapAccess.update array).prim →
    Target size i s ((HeapAccess.update array).block s + (HeapAccess.update array).index s)

/-- The instruction stores a word at the address. -/
def Stores (size : Nat) (i : Instr) (s : State) (a : Word) : Prop :=
  Target size i s a ∧ ∃ t, execute size i s = .ok () t

/-- The instruction that a run has reached after `k` steps, if it has not come to an end. -/
def AtStep (code : Code) (s : State) (k : Nat) (i : Instr) : Prop :=
  (run code k 0 s).ending = .outOfFuel ∧
    ∃ a, (run code k 0 s).state.cp.index? code.size = some a ∧ code.instr a = i

/-- Step `k` of a run allocates the block. -/
def TakesAt (code : Code) (s : State) (k : Nat) (b : HeapBlock) : Prop :=
  ∃ i, AtStep code s k i ∧ Takes code.size i (run code k 0 s).state b

/-- Step `k` of a run stores a word at the address. -/
def StoresAt (code : Code) (s : State) (k : Nat) (a : Word) : Prop :=
  ∃ i, AtStep code s k i ∧ Stores code.size i (run code k 0 s).state a

/-- An action that started in `s` has put one word at `a`, or the machine has stopped with the
memory as it was. -/
inductive Writes {α : Type} (s : State) (a : Word) : EStateM.Result Stop State α → Prop
  | stopped {e : Stop} {t : State} : t.data = s.data → t.ht = s.ht → Writes s a (.error e t)
  | done {r : α} {n : Nat} {v : Word} {t : State} : a.toInt = n → n < memorySize →
    t.data = s.data.setIfInBounds n v → t.ht = s.ht → Writes s a (.ok r t)

section Stores

variable {α β : Type} {s u : State} {i : Instr} {size : Nat} {a v : Word}

theorem Writes.bind {x : Action α} {f : α → Action β} (h : Writes s a (x u))
    (hf : ∀ r t, ∃ r' t', f r t = .ok r' t' ∧ t'.data = t.data ∧ t'.ht = t.ht) :
    Writes s a ((x >>= f) u) := by
  cases hx : x u with
  | error e t =>
    rw [hx] at h
    cases h with
    | stopped hdata hht =>
      rw [EStateM.bind_of_error hx]
      exact .stopped hdata hht
  | ok r t =>
    obtain ⟨r', t', hok, hdata', hht'⟩ := hf r t
    rw [hx] at h
    cases h with
    | done hn hlt hdata hht =>
      rw [EStateM.bind_of_ok hx, hok]
      exact .done hn hlt (hdata'.trans hdata) (hht'.trans hht)

theorem Writes.execute (h : Writes s a (effect size i s)) : Writes s a (execute size i s) :=
  h.bind fun _ _ => ⟨_, _, rfl, rfl, rfl⟩

theorem Writes.next {x : Action Unit}
    (h : Writes s a (x u)) : Writes s a ((x >>= fun _ => next) u) :=
  h.bind fun _ _ => ⟨_, _, rfl, rfl, rfl⟩

theorem Writes.of_check {Q : α → Prop} {x : Action α} {f : α → Action β} {m : Nat}
    (hx : Keeps (· = { s with st := Word.ofNat m }) x Q)
    (hf : ∀ r, Q r → Writes s a (f r { s with st := Word.ofNat m })) :
    Writes s a ((x >>= f) { s with st := Word.ofNat m }) := by
  have hkept := hx _ rfl
  cases hr : x { s with st := Word.ofNat m } with
  | error e t =>
    rw [hr] at hkept
    rw [EStateM.bind_of_error hr, hkept]
    exact .stopped rfl rfl
  | ok r t =>
    rw [hr] at hkept
    rw [EStateM.bind_of_ok hr, hkept.1]
    exact hf r hkept.2

theorem writes_put {m : Nat} (hu : ({ s with st := Word.ofNat m } : State).Apart) :
    Writes s a (put a v { s with st := Word.ofNat m }) := by
  by_cases houtside : a.toInt < 0 ∨ memorySize ≤ a.toInt
  · rw [put_outside hu houtside]
    exact .stopped rfl rfl
  · obtain ⟨n, hn⟩ : ∃ n : Nat, a.toInt = n := ⟨a.toInt.toNat, by omega⟩
    rw [put_word hu hn (by omega)]
    exact .done hn (by omega) rfl rfl

theorem writes_store {m : Nat} (hu : ({ s with st := Word.ofNat m } : State).Apart) :
    Writes s a (store a v { s with st := Word.ofNat m }) :=
  Writes.of_check (Stable.checkAddress a) fun _ _ => writes_put hu

theorem writes_update {array : Bool} (hs : s.Apart) :
    Writes s ((HeapAccess.update array).block s + (HeapAccess.update array).index s)
      (primitive (HeapAccess.update array).prim s) := by
  by_cases hoperands : (HeapAccess.update array).operands ≤ s.height
  · obtain ⟨hu, -⟩ := hs.lower (m := s.height - (HeapAccess.update array).operands) (by omega)
    rw [HeapAccess.primitive_of_operands hs hoperands, HeapAccess.action]
    apply Writes.of_check (keeps_element _ _ _)
    rintro _ rfl
    exact writes_put hu
  · obtain ⟨st, hst⟩ := HeapAccess.primitive_of_short hs (Nat.lt_of_not_le hoperands)
    rw [hst]
    exact .stopped rfl rfl

/-- An instruction with a target writes there only. -/
theorem execute_writes (hs : s.Apart) (h : Target size i s a) : Writes s a (execute size i s) := by
  apply Writes.execute
  cases h with
  | store hop =>
    rw [effect_of_store hop]
    cases hheight : s.height with
    | zero =>
      rw [EStateM.bind_of_error (pop_empty hs hheight)]
      exact .stopped rfl rfl
    | succ m =>
      obtain ⟨hu, -⟩ := hs.lower (m := m) (by omega)
      have hst : s.st - 1 = Word.ofNat m := by
        rw [hs.st_eq, hheight, ← Word.ofNat_add_one]
        exact Int64.add_sub_cancel _ _
      have haddress : address size i { s with st := Word.ofNat m } =
          .ok (regValue size { s with st := s.st - 1 } (Reg.ofNumber? i.r) + i.d)
            { s with st := Word.ofNat m } := by
        rw [hst]
        rfl
      rw [EStateM.bind_of_ok (pop_word hs hheight), EStateM.bind_of_ok haddress]
      exact (writes_store hu).next
  | storei hop =>
    rw [effect_of_storei hop]
    by_cases hheight : s.height < 2
    · obtain ⟨st, hst⟩ := pop2_short hs hheight
      rw [EStateM.bind_of_error hst]
      exact .stopped rfl rfl
    · obtain ⟨m, hm⟩ : ∃ m, s.height = m + 2 := ⟨s.height - 2, by omega⟩
      obtain ⟨hu, -⟩ := hs.lower (m := m) (by omega)
      rw [EStateM.bind_of_ok (pop2_words hs hm), hm]
      exact (writes_store hu).next
  | update array hcalled =>
    rw [effect_of_called hcalled]
    exact (writes_update hs).next

end Stores

section Blocks

variable {b : HeapBlock} {s t : State} {i : Instr} {size n : Nat} {v : Word}

theorem HeapBlock.Held.write (h : b.Held s) (hn : n < s.data.size) (hheader : ¬ b.IsHeader n)
    (hdata : t.data = s.data.setIfInBounds n v) (hht : t.ht = s.ht) : b.Held t := by
  have hlow := h.low
  have hheap := h.heap
  have hword (k : Nat) : t.word k = if k = n then v else s.word k := by
    rw [State.word, hdata, getD_setIfInBounds hn]
    rfl
  unfold HeapBlock.IsHeader at hheader
  constructor
  · exact hlow
  · exact hht ▸ hheap
  · rw [hword, if_neg (by omega), h.classWord]
  · rw [hword, if_neg (by omega), h.sizeWord]

theorem HeapBlock.Held.not_isHeader (h : b.Held s) {m : Int}
    (hm : m < s.ht.toInt) : ¬ b.IsHeader m := by
  have hheap := h.heap
  unfold HeapBlock.IsHeader
  omega

theorem offStack_held : OffStack b.Held where
  pushed := by
    intro s j w hs hroom hj
    have hindex : (j : Int) = s.st.toInt := by
      unfold Word.index? at hj
      split at hj
      · rename_i hbounds
        cases hj
        exact Int.toNat_of_nonneg hbounds.1
      · cases hj
    rw [Int64.le_iff_toInt_le] at hroom
    have hset : s.data.set j w = s.data.setIfInBounds j w := by
      rw [Array.setIfInBounds, dif_pos j.isLt]
    exact hs.write j.isLt (hs.not_isHeader (by omega)) hset rfl
  popped hs _ := ⟨hs.low, hs.heap, hs.classWord, hs.sizeWord⟩
  linked _ _ hs := ⟨hs.low, hs.heap, hs.classWord, hs.sizeWord⟩
  placed _ hs := ⟨hs.low, hs.heap, hs.classWord, hs.sizeWord⟩
  heard _ hs := ⟨hs.low, hs.heap, hs.classWord, hs.sizeWord⟩
  told _ hs := ⟨hs.low, hs.heap, hs.classWord, hs.sizeWord⟩

theorem HeapBlock.Held.allocated {cls size a : Word} (hs : b.Held s)
    (h : Allocated s t cls size a) (hsize : 0 ≤ size.toInt) : b.Held t := by
  have hlow := hs.low
  have hheap := hs.heap
  have haddress := h.address
  constructor
  · exact hlow
  · have htop := h.top
    omega
  · rw [h.others _ (.inr (by omega)), hs.classWord]
  · rw [h.others _ (.inr (by omega)), hs.sizeWord]

theorem allocate_held (cls size : Word) :
    Preserves (fun s => s.Apart ∧ b.Held s) (allocate cls size) := by
  intro s hs
  have happart := Guarded.allocate guarded_apart cls size s hs.1
  have hallocates := allocate_allocates hs.1 cls size
  cases hr : allocate cls size s with
  | error e t =>
    rw [hr] at hallocates
    cases hallocates
    exact hs
  | ok a t =>
    rw [hr] at happart hallocates
    cases hallocates with
    | done hroom h =>
      unfold State.Refuses at hroom
      exact ⟨⟨happart.1, hs.2.allocated h (by omega)⟩, trivial⟩

theorem execute_held (hs : s.Apart) (hb : b.Held s) (h : ∀ a, ¬ Target size i s a) :
    Ends b.Held (fun _ => True) (execute size i s) := by
  have hstack : OffStack b.Held := offStack_held
  have hset {s : State} (st : Word) (hs : b.Held s) : b.Held { s with st } :=
    ⟨hs.low, hs.heap, hs.classWord, hs.sizeWord⟩
  have hboth := OffStack.and offStack_apart hstack
  have hnext : Preserves b.Held next := keeps_any
  apply hstack.execute
  by_cases hpop : Op.ofNumber? i.op = some .pop
  · rw [effect_of_pop hpop]
    exact (preserves_drop hset i.d).bind (fun _ => hnext) s hb
  · by_cases hret : Op.ofNumber? i.op = some .ret
    · rw [effect_of_ret hret]
      exact hstack.leaveFrame hset i.n i.d s hb
    · by_cases hwrites : ∃ p, i.called? = some p ∧ p.writes = true
      · obtain ⟨p, hcalled, hp⟩ := hwrites
        rw [effect_of_called hcalled]
        suffices hprim : Preserves (fun s => s.Apart ∧ b.Held s) (primitive p) from
          (Ends.of_state (hprim s ⟨hs, hb⟩) fun _ hu => hu.2).bind fun _ _ => hnext
        cases p with
        | alloc | newarr =>
          exact hboth.pop.bind fun _ => (allocate_held _ _).bind fun _ => hboth.push _
        | newobj => exact hboth.pop2.bind fun _ => (allocate_held _ _).bind fun _ => hboth.push _
        | arrayupd => exact absurd (.update true hcalled) (h _)
        | fieldupd => exact absurd (.update false hcalled) (h _)
        | _ => cases hp
      · apply hstack.effect (fun hop => h _ (.store hop))
          (fun hop => h _ (.storei hop)) hpop hret _ s hb
        intro p hcalled
        by_contra hp
        exact hwrites ⟨p, hcalled, by simpa using hp⟩

/-- A step whose store, if it makes one, misses the header of a block keeps the block in place. -/
theorem held_of_step (hs : s.Apart) (hb : b.Held s)
    (hmiss : ∀ a, Stores size i s a → ¬ b.IsHeader a.toInt) :
    Ends b.Held (fun _ => True) (execute size i s) := by
  by_cases htarget : ∃ a, Target size i s a
  · obtain ⟨a, ha⟩ := htarget
    have hwrites := execute_writes hs ha
    cases hr : execute size i s with
    | error e t =>
      rw [hr] at hwrites
      cases hwrites with
      | stopped hdata hht =>
        have hword (k : Nat) : t.word k = s.word k := by rw [State.word, hdata, State.word]
        exact ⟨hb.low, hht ▸ hb.heap, (hword _).trans hb.classWord, (hword _).trans hb.sizeWord⟩
    | ok r t =>
      rw [hr] at hwrites
      cases hwrites with
      | done hn hlt hdata hht =>
        have hheader := hmiss a ⟨ha, t, hr⟩
        rw [hn] at hheader
        exact ⟨hb.write (by rw [hs.size]; exact hlt) hheader hdata hht, trivial⟩
  · exact execute_held hs hb fun a ha => htarget ⟨a, ha⟩

end Blocks

section Taking

variable {x : Allocation} {b : HeapBlock} {s t : State} {i : Instr} {p : Prim} {size m : Nat}

theorem execute_of_ok (hcalled : i.called? = some p) (h : primitive p s = .ok () t) :
    execute size i s = .ok () { t with cp := t.cp + 1 } := by
  have heffect : effect size i s = .ok (t.cp + 1) t := by
    rw [effect_of_called hcalled, EStateM.bind_of_ok h]
    rfl
  exact EStateM.bind_of_ok heffect

theorem execute_of_error {e : Stop} (hcalled : i.called? = some p)
    (h : primitive p s = .error e t) : execute size i s = .error e t := by
  have heffect : effect size i s = .error e t := by
    rw [effect_of_called hcalled, EStateM.bind_of_error h]
  exact EStateM.bind_of_error heffect

theorem op_ne_halt (hcalled : i.called? = some p) : i.op ≠ Op.halt.number := by
  intro hop
  simp [Instr.called?, hop, Op.ofNumber?_number] at hcalled

/-- What is left to do once the operands are popped. -/
theorem primitive_of_room (hs : s.Apart) (hm : s.height = m + x.operands) :
    primitive x.prim s = (allocate (x.classWord s) (Allocation.sizeWord s) >>= push)
      { s with st := Word.ofNat m } := by
  have hlast : Allocation.sizeWord s = s.word (m + x.operands - 1) := by
    rw [Allocation.sizeWord, hm]
  cases x with
  | plain =>
    rw [hlast]
    exact EStateM.bind_of_ok (pop_word hs hm)
  | array =>
    rw [hlast]
    exact EStateM.bind_of_ok (pop_word hs hm)
  | object =>
    have hclass : Allocation.classWord s .object = s.word m := by
      rw [Allocation.classWord, hm]
      rfl
    have hprim : primitive .newobj = pop2 >>= fun y => allocate y.1 y.2 >>= push := rfl
    rw [hlast, hclass, Allocation.prim, hprim, EStateM.bind_of_ok (pop2_words hs hm)]
    rfl

theorem primitive_of_few (hs : s.Apart) (hm : s.height < x.operands) :
    ∃ st, primitive x.prim s = .error (.fault .stackUnderflow) { s with st } := by
  cases x with
  | plain | array => exact ⟨s.st, EStateM.bind_of_error (pop_empty hs (Nat.lt_one_iff.mp hm))⟩
  | object =>
    obtain ⟨st, hst⟩ := pop2_short hs hm
    exact ⟨st, EStateM.bind_of_error hst⟩

theorem execute_of_room (hs : s.Apart) (hcalled : i.called? = some x.prim)
    (hm : s.height = m + x.operands)
    (hroom : ¬ ({ s with st := Word.ofNat m } : State).Refuses (Allocation.sizeWord s)) :
    ∃ a u, Allocated { s with st := Word.ofNat m } u (x.classWord s) (Allocation.sizeWord s) a ∧
      u.Apart ∧
      execute size i s =
        .ok () { u with
          data := u.data.setIfInBounds m a, st := Word.ofNat (m + 1), cp := s.cp + 1 } := by
  obtain ⟨hv, -⟩ := hs.lower (m := m) (by omega)
  have hmemory : memorySize = 65536 := rfl
  have hheight := hs.height_le
  have htop := hs.top
  obtain ⟨u, a, hallocate, h⟩ := allocate_of_room hv hroom (x.classWord s)
  have hu := Guarded.allocate guarded_apart (x.classWord s) (Allocation.sizeWord s) _ hv
  rw [hallocate] at hu
  have hst : u.st = Word.ofNat m := by rw [h.rest]
  have hcp : u.cp = s.cp := by rw [h.rest]
  have hfree : (m : Int) < u.ht.toInt := by
    have hroom : (Word.ofNat m).toInt < u.ht.toInt := h.room
    rwa [Word.toInt_ofNat (by omega)] at hroom
  have hpush := push_word (w := a) hu.1 hst hfree
  have hprim := (primitive_of_room hs hm).trans ((EStateM.bind_of_ok hallocate).trans hpush)
  refine ⟨a, u, h, hu.1, ?_⟩
  rw [execute_of_ok hcalled hprim, hcp]

theorem room_of_execute (hs : s.Apart) (hcalled : i.called? = some x.prim)
    (h : execute size i s = .ok () t) :
    ∃ m, s.height = m + x.operands ∧
      ¬ ({ s with st := Word.ofNat m } : State).Refuses (Allocation.sizeWord s) := by
  by_cases hm : x.operands ≤ s.height
  · obtain ⟨m, hm⟩ : ∃ m, s.height = m + x.operands := ⟨s.height - x.operands, by omega⟩
    refine ⟨m, hm, ?_⟩
    intro hrefuses
    obtain ⟨hv, -⟩ := hs.lower (m := m) (by omega)
    obtain ⟨f, hf⟩ := allocate_of_refuses hv hrefuses (x.classWord s)
    have hprim := (primitive_of_room hs hm).trans (EStateM.bind_of_error hf)
    cases (execute_of_error hcalled hprim).symm.trans h
  · obtain ⟨st, hst⟩ := primitive_of_few hs (Nat.lt_of_not_le hm)
    cases (execute_of_error hcalled hst).symm.trans h

theorem held_of_takes (hs : s.Apart) (h : Takes size i s b) :
    ∃ t, execute size i s = .ok () t ∧ b.Held t ∧ 0 ≤ b.size.toInt ∧
      b.address.toInt + b.size.toInt = s.ht.toInt := by
  cases h with
  | @intro x t hcalled ht =>
    obtain ⟨m, hm, hroom⟩ := room_of_execute hs hcalled ht
    obtain ⟨a, u, h, hu, he⟩ := execute_of_room (i := i) (x := x) hs hcalled hm hroom
    have hmemory : memorySize = 65536 := rfl
    have hheight := hs.height_le
    have htop := hs.top
    have hmword : (Word.ofNat m).toInt = m := Word.toInt_ofNat (by omega)
    have hfree : (Word.ofNat m).toInt < u.ht.toInt := h.room
    have hlimit := hu.top
    have hsize : m < u.data.size := by
      rw [hu.size]
      omega
    injection ht.symm.trans he with _ hstate
    have haddress : t.word (t.height - 1) = a := by
      have hlast : (Word.ofNat (m + 1)).toInt.toNat - 1 = m := by
        rw [Word.toInt_ofNat (by omega)]
        omega
      rw [hstate, State.height, hlast, State.word, getD_setIfInBounds hsize, if_pos rfl]
    have hnew : (HeapBlock.mk a (x.classWord s) (Allocation.sizeWord s)).Held u :=
      ⟨h.low, Int.le_of_eq h.top, h.classWord, h.sizeWord⟩
    have hheld := hnew.write hsize (hnew.not_isHeader (by omega)) (congrArg State.data hstate)
      (by rw [hstate])
    have hend : a.toInt = s.ht.toInt - (Allocation.sizeWord s).toInt := h.address
    rw [haddress]
    refine ⟨t, ht, hheld, ?_, ?_⟩
    · unfold State.Refuses at hroom
      change 0 ≤ (Allocation.sizeWord s).toInt
      omega
    · change a.toInt + (Allocation.sizeWord s).toInt = s.ht.toInt
      omega

end Taking

section Run

variable {code : Code} {s : State} {b c : HeapBlock} {n j k : Nat}

/-- A run that reaches an allocating instruction with its operands and room goes on behind it. -/
theorem takesAt_of_room {x : Allocation} {m : Nat} {a : Fin code.size}
    (hs : (run code k 0 s).state.Apart) (hending : (run code k 0 s).ending = .outOfFuel)
    (ha : (run code k 0 s).state.cp.index? code.size = some a)
    (hcalled : (code.instr a).called? = some x.prim)
    (hm : (run code k 0 s).state.height = m + x.operands)
    (hroom : ¬ ({ (run code k 0 s).state with st := Word.ofNat m } :
      State).Refuses (Allocation.sizeWord (run code k 0 s).state)) :
    (∃ b, TakesAt code s k b) ∧ (run code (k + 1) 0 s).ending = .outOfFuel ∧
      (run code (k + 1) 0 s).state.st = Word.ofNat (m + 1) ∧
      (run code (k + 1) 0 s).state.cp = (run code k 0 s).state.cp + 1 ∧
      (run code (k + 1) 0 s).state.ht.toInt =
        (run code k 0 s).state.ht.toInt - (Allocation.sizeWord
        (run code k 0 s).state).toInt - 2 := by
  obtain ⟨w, u, h, -, he⟩ := execute_of_room hs hcalled hm hroom
  rw [run_succ hending, run_of_ok ha (op_ne_halt hcalled) he]
  refine ⟨⟨_, _, ⟨hending, a, ha, rfl⟩, .intro x hcalled he⟩, rfl, rfl, rfl, ?_⟩
  have haddress : w.toInt = (run code k 0 s).state.ht.toInt - _ := h.address
  rw [← haddress]
  exact h.top

/-- The stores of a run miss the headers of the blocks that it has allocated before. -/
def MissesHeaders (code : Code) (s : State) (n : Nat) : Prop :=
  ∀ j k b a, j < k → k < n → TakesAt code s j b → StoresAt code s k a → ¬ b.IsHeader a.toInt

theorem held_of_takesAt (hs : (run code j 0 s).state.Apart) (h : TakesAt code s j b) :
    (run code (j + 1) 0 s).ending = .outOfFuel ∧ b.Held (run code (j + 1) 0 s).state ∧
      0 ≤ b.size.toInt ∧
      b.address.toInt + b.size.toInt = (run code j 0 s).state.ht.toInt := by
  obtain ⟨i, ⟨hending, a, ha, rfl⟩, htakes⟩ := h
  obtain ⟨t, ht, hheld, hsize, hend⟩ := held_of_takes hs htakes
  have hhalt : (code.instr a).op ≠ Op.halt.number := by
    cases htakes with
    | intro x hcalled _ => exact op_ne_halt hcalled
  have hrun : run code (j + 1) 0 s = ⟨t, (run code j 0 s).steps + 1, .outOfFuel⟩ := by
    rw [run_succ hending, run_of_ok ha hhalt ht]
    rfl
  rw [hrun]
  exact ⟨rfl, hheld, hsize, hend⟩

/-- Along a run that keeps stack and heap apart and misses the headers, a block stays in place. -/
theorem held_of_run (hapart : ∀ k ≤ n, (run code k 0 s).state.Apart)
    (hmiss : MissesHeaders code s n) (h : TakesAt code s j b) (hjk : j < k)
    (hkn : k ≤ n) : b.Held (run code k 0 s).state := by
  obtain ⟨hending, hheld, -⟩ := held_of_takesAt (hapart j (by omega)) h
  obtain ⟨d, rfl⟩ : ∃ d, k = j + 1 + d := ⟨k - (j + 1), by omega⟩
  rw [run_add hending]
  -- The invariant is that the block is in place, and the states are those of the run from step `j +
  -- 1` on.
  apply run_keeps fun u =>
    u.Apart ∧ ∀ i a, (∃ c, u.cp.index? code.size = some c ∧ code.instr c = i) →
    Stores code.size i u a → ¬ b.IsHeader a.toInt
  · intro u c hu hfine hc _
    exact held_of_step hfine.1 hu fun a => hfine.2 _ a ⟨c, hc, rfl⟩
  · exact hheld
  · intro r hr hrun
    rw [← run_add hending] at hrun ⊢
    refine ⟨hapart _ (by omega), ?_⟩
    intro i a hi hstores
    exact hmiss j (j + 1 + r) b a (by omega) (by omega) h ⟨i, ⟨hrun, hi⟩, hstores⟩

theorem below_of_takesAt (hapart : ∀ k ≤ n, (run code k 0 s).state.Apart)
    (hmiss : MissesHeaders code s n) (hjk : j < k) (hkn : k < n) (hb : TakesAt code s j b)
    (hc : TakesAt code s k c) : c.address.toInt + c.size.toInt ≤ b.address.toInt - 2 := by
  obtain ⟨-, -, -, hend⟩ := held_of_takesAt (hapart k (by omega)) hc
  rw [hend]
  exact (held_of_run hapart hmiss hb hjk (by omega)).heap

end Run

/-- Allocation is exact: it is refused just if the size is negative or, in integers, there is no
room above the stack, and then nothing changes; else it gives a cleared block right below the heap
and changes nothing but the words of the block. Hence, along a run that keeps stack and heap apart
and whose stores miss the headers, every block stays in place, and blocks of different steps are
disjoint and have different addresses, none of them null. -/
theorem allocation_isolates :
    (∀ (s : State) (cls size : Word), s.Apart → Allocates s cls size (allocate cls size s) ∧
      (0 ≤ size.toInt → (s.ht - size - 2).toInt = s.ht.toInt - size.toInt - 2)) ∧
    ∀ (code : Code) (s : State) (n : Nat),
      (∀ k ≤ n, (run code k 0 s).state.Apart) → MissesHeaders code s n →
      ∀ j < n, ∀ b, TakesAt code s j b →
        b.address ≠ 0 ∧ (∀ k, j < k → k ≤ n → b.Held (run code k 0 s).state) ∧
        ∀ k < n, k ≠ j → ∀ c, TakesAt code s k c → b.Disjoint c ∧ b.address ≠ c.address := by
  constructor
  · intro s cls size hs
    exact ⟨allocate_allocates hs cls size, hs.toInt_room⟩
  · intro code s n hapart hmiss j hj b hb
    have hheld (k : Nat) (hjk : j < k) (hkn : k ≤ n) : b.Held (run code k 0 s).state :=
      held_of_run hapart hmiss hb hjk hkn
    refine ⟨?_, hheld, ?_⟩
    · intro hnull
      have hlow := (hheld (j + 1) (by omega) hj).low
      have hzero : (0 : Word).toInt = 0 := rfl
      rw [hnull] at hlow
      omega
    · intro k hk hne c hc
      obtain ⟨-, -, hsize, -⟩ := held_of_takesAt (hapart j (by omega)) hb
      obtain ⟨-, -, hsize', -⟩ := held_of_takesAt (hapart k (by omega)) hc
      have hbelow : c.address.toInt + c.size.toInt ≤ b.address.toInt - 2 ∨
          b.address.toInt + b.size.toInt ≤ c.address.toInt - 2 := by
        rcases Nat.lt_or_gt_of_ne hne with hkj | hjk
        · exact .inr (below_of_takesAt hapart hmiss hkj hj hc hb)
        · exact .inl (below_of_takesAt hapart hmiss hjk hk hb hc)
      constructor
      · intro m hcover hcover'
        unfold HeapBlock.Covers at hcover hcover'
        omega
      · intro heq
        rw [heq] at hbelow
        omega

/-- An empty block at the end of the memory and an array of one word: `CALL alloc`, `LOADL 1` and
`CALL newarr` -/
def takesTwo : Code := #[.prim .alloc, .of .loadl 0 .zr 1, .prim .newarr]

/-- One word on the stack and all of the heap free. -/
def taker (data : Array Word) : State :=
  { data, st := 1, lb := 0, ob := 0, ht := Word.ofNat memorySize, cp := 0,
    input := none, output := { sink := .accept } }

section Two

variable {data : Array Word}

theorem taker_apart (hsize : data.size = memorySize) (k : Nat) :
    (run takesTwo k 0 (taker data)).state.Apart := by
  have hops : ∀ a, Op.ofNumber? (takesTwo.instr a).op ≠ some .pop ∧
      Op.ofNumber? (takesTwo.instr a).op ≠ some .ret := by
    decide
  have hstays (a : Fin takesTwo.size) (s : State) : ¬ Strays (takesTwo.instr a) s := by
    intro h
    unfold Strays at h
    split at h
    · rename_i hop
      exact (hops a).1 hop
    · rename_i hop
      exact (hops a).2 hop
    · exact h
  apply run_keeps fun _ => True
  · intro s a hs _ _ _
    exact execute_apart hs (hstays a s) takesTwo.size
  · exact ⟨hsize, (by decide : 0 ≤ (1 : Word).toInt),
      (by decide : (1 : Word).toInt ≤ (Word.ofNat memorySize).toInt),
      (by decide : 0 < (Word.ofNat memorySize).toInt),
      (by decide : (Word.ofNat memorySize).toInt ≤ memorySize)⟩
  · intros
    trivial

theorem taker_misses (n : Nat) : MissesHeaders takesTwo (taker data) n := by
  have hops : ∀ a, Op.ofNumber? (takesTwo.instr a).op ≠ some .store ∧
      Op.ofNumber? (takesTwo.instr a).op ≠ some .storei := by
    decide
  have hcalls : ∀ a array, (takesTwo.instr a).called? ≠ some (HeapAccess.update array).prim := by
    decide
  intro j k b a _ _ _ hstores
  obtain ⟨_, ⟨_, c, _, rfl⟩, htarget, _⟩ := hstores
  cases htarget with
  | store hop => exact absurd hop (hops c).1
  | storei hop => exact absurd hop (hops c).2
  | update array hcalled => exact absurd hcalled (hcalls c array)

theorem taker_takes (hsize : data.size = memorySize) (hzero : data.getD 0 0 = 0) :
    (∃ b, TakesAt takesTwo (taker data) 0 b) ∧ (run takesTwo 1 0 (taker data)).ending = .outOfFuel ∧
      (run takesTwo 1 0 (taker data)).state.st = Word.ofNat 1 ∧
      (run takesTwo 1 0 (taker data)).state.cp = 1 ∧
      (run takesTwo 1 0 (taker data)).state.ht.toInt = 65534 := by
  have hempty : Allocation.sizeWord (taker data) = 0 := hzero
  have hroom : ¬ ({ taker data with st := Word.ofNat 0 } : State).Refuses
      (Allocation.sizeWord (taker data)) := by
    have hsmall : ¬ ((0 : Word).toInt < 0 ∨
        (Word.ofNat memorySize).toInt - (0 : Word).toInt - 2 ≤ (Word.ofNat 0).toInt) := by decide
    rw [hempty]
    exact hsmall
  obtain ⟨hb, hending, hst, hcp, hht⟩ :=
    takesAt_of_room (x := .plain) (m := 0) (a := ⟨0, by decide⟩) (taker_apart hsize 0)
    rfl rfl (by decide) (show (1 : Word).toInt.toNat = 1 by decide) hroom
  refine ⟨hb, hending, hst, hcp, hht.trans ?_⟩
  change _ - (Allocation.sizeWord (taker data)).toInt - 2 = _
  rw [hempty]
  exact (by decide : (Word.ofNat memorySize).toInt - (0 : Word).toInt - 2 = 65534)

theorem takesTwo_loads {u : State} (hu : u.Apart) (hst : u.st = Word.ofNat 1) (hcp : u.cp = 1)
    (hht : 1 < u.ht.toInt) (steps : Nat) :
    run takesTwo 1 steps u =
      ⟨{ u with data := u.data.setIfInBounds 1 1, st := Word.ofNat 2, cp := 2 }, steps + 1,
      .outOfFuel⟩ := by
  have hnext : u.cp.index? takesTwo.size = some ⟨1, by decide⟩ := by
    rw [hcp]
    rfl
  have hload : execute takesTwo.size (takesTwo.instr ⟨1, by decide⟩) u = .ok () _ :=
    execute_loadl (by decide) hu hst hht
  rw [hcp] at hload
  rw [run_of_ok hnext (by decide) hload]
  rfl

theorem taker_loads (hsize : data.size = memorySize) (hzero : data.getD 0 0 = 0) :
    (run takesTwo 2 0 (taker data)).ending = .outOfFuel ∧
      (run takesTwo 2 0 (taker data)).state.st = Word.ofNat 2 ∧
      (run takesTwo 2 0 (taker data)).state.cp = 2 ∧
      (run takesTwo 2 0 (taker data)).state.ht.toInt = 65534 ∧
      (run takesTwo 2 0 (taker data)).state.word 1 = 1 := by
  obtain ⟨-, hending, hst, hcp, hht⟩ := taker_takes hsize hzero
  have hs := taker_apart hsize 1
  rw [run_succ hending, takesTwo_loads hs hst hcp (by omega)]
  generalize (run takesTwo 1 0 (taker data)).state = u at hs hht ⊢
  refine ⟨rfl, rfl, rfl, hht, ?_⟩
  exact (getD_setIfInBounds (by rw [hs.size]; decide)).trans (if_pos rfl)

theorem array_fits {u : State} (hst : u.st = Word.ofNat 2) (hht : u.ht.toInt = 65534)
    (hone : u.word 1 = 1) :
    u.height = 1 + 1 ∧
      ¬ ({ u with st := Word.ofNat 1 } : State).Refuses (Allocation.sizeWord u) := by
  have hheight : u.height = 1 + 1 := by
    rw [State.height, hst]
    decide
  have hsize : (Allocation.sizeWord u).toInt = 1 := by
    rw [Allocation.sizeWord, hheight, hone]
    decide
  have hlow : (Word.ofNat 1).toInt = 1 := by decide
  refine ⟨hheight, ?_⟩
  change ¬ ((Allocation.sizeWord u).toInt < 0 ∨ u.ht.toInt - (Allocation.sizeWord u).toInt - 2 ≤
    (Word.ofNat 1).toInt)
  omega

end Two

/-- The array lies below the empty block, which begins where the memory ends. -/
theorem takesTwo_isolates :
    let s := taker (.replicate memorySize 0)
    (∀ k ≤ 3, (run takesTwo k 0 s).state.Apart) ∧ MissesHeaders takesTwo s 3 ∧
      ∃ b c, TakesAt takesTwo s 0 b ∧ TakesAt takesTwo s 2 c ∧ b.Disjoint c ∧
        b.address ≠ c.address ∧ b.Held (run takesTwo 3 0 s).state := by
  have hsize : (Array.replicate memorySize (0 : Word)).size = memorySize := Array.size_replicate
  have hzero : (Array.replicate memorySize (0 : Word)).getD 0 0 = 0 := by simp [memorySize]
  generalize Array.replicate memorySize (0 : Word) = data at hsize hzero ⊢
  obtain ⟨⟨b, hb⟩, -⟩ := taker_takes hsize hzero
  obtain ⟨hending, hst, hcp, hht, hone⟩ := taker_loads hsize hzero
  obtain ⟨hheight, hroom⟩ := array_fits hst hht hone
  obtain ⟨⟨c, hc⟩, -⟩ :=
    takesAt_of_room (x := .array) (a := ⟨2, by decide⟩) (taker_apart hsize 2) hending
      (by rw [hcp]; rfl)
    (by decide) hheight hroom
  have happart (k : Nat) (_ : k ≤ 3) := taker_apart hsize k
  obtain ⟨-, hheld, hother⟩ :=
    allocation_isolates.2 takesTwo (taker data) 3 happart (taker_misses 3) 0 (by decide) b hb
  obtain ⟨hdisjoint, haddress⟩ := hother 2 (by decide) (by decide) c hc
  exact ⟨happart, taker_misses 3, b, c, hb, hc, hdisjoint, haddress,
    hheld 3 (by decide) (by decide)⟩

end MiniJava.Machine
