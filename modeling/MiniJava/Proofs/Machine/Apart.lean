import MiniJava.Proofs.Machine.OffStack
/-!
Stack and heap in one memory. Where the machine checks a change of the stack top or of the heap top,
the stack stays below the heap. `POP` and `RETURN` compare the new stack top with the stack base
only, so it is they that can lift the stack into the heap or, where the difference is below zero,
leave it under its base.
-/
namespace MiniJava

namespace Word

theorem toInt_add {a b : Word} (hlow : -2 ^ 63 ≤ a.toInt + b.toInt)
    (hhigh : a.toInt + b.toInt < 2 ^ 63) : (a + b).toInt = a.toInt + b.toInt := by
  rw [Int64.toInt_add]
  exact Int.bmod_eq_of_le (by omega) (by omega)

theorem toInt_sub_one {w : Word} (h : 0 < w.toInt) : (w - 1).toInt = w.toInt - 1 := by
  have hone : (1 : Word).toInt = 1 := rfl
  have := w.toInt_lt
  rw [toInt_sub (by omega) (by omega), hone]

/-- A difference that wraps around is far from the addresses of the memory. -/
theorem toInt_sub_between {a b : Word} (top : Int) (ha : 0 ≤ a.toInt) (ha' : a.toInt ≤ 2 ^ 16)
    (htop : top ≤ 2 ^ 16) :
    (0 ≤ (a - b).toInt ∧ (a - b).toInt ≤ top) ↔ 0 ≤ a.toInt - b.toInt ∧
      a.toInt - b.toInt ≤ top := by
  have hlow := b.le_toInt
  have hhigh := b.toInt_lt
  rw [Int64.toInt_sub, Int.bmod_def]
  omega

end Word

namespace Machine

/-- A property of states that survives each change which the machine makes behind a check of its
own. -/
structure Guarded (I : State → Prop) : Prop where
  stored : ∀ {s : State} {i : Nat} (w : Word) (h : i < s.data.size), I s →
    I { s with data := s.data.set i w h }
  pushed : ∀ {s : State}, I s → ¬ s.ht ≤ s.st → I { s with st := s.st + 1 }
  popped : ∀ {s : State}, I s → ¬ s.st ≤ 0 → I { s with st := s.st - 1 }
  taken : ∀ {s : State} {size : Word}, I s → ¬ size < 0 → ¬ s.ht - size - 2 ≤ s.st →
    I { s with ht := s.ht - (size + 2) }
  linked : ∀ {s : State} (lb ob : Word), I s → I { s with lb, ob }
  placed : ∀ {s : State} (cp : Word), I s → I { s with cp }
  heard : ∀ {s : State} (input : Option Input), I s → I { s with input }
  told : ∀ {s : State} (output : Output), I s → I { s with output }

section Actions

variable {I : State → Prop}

namespace Guarded

variable (h : Guarded I)

include h

theorem offStack : OffStack I where
  pushed w hs hroom _ := h.pushed (h.stored w (Fin.isLt _) hs) hroom
  popped hs hfull := h.popped hs hfull
  linked lb ob hs := h.linked lb ob hs
  placed cp hs := h.placed cp hs
  heard input hs := h.heard input hs
  told output hs := h.told output hs

theorem put (a w : Word) : Preserves I (put a w) := by
  intro s hs
  unfold Machine.put
  split
  · rename_i i _
    exact ⟨h.stored w i.isLt hs, trivial⟩
  · exact hs

theorem store (a w : Word) : Preserves I (store a w) :=
  Preserves.bind (Stable.checkAddress a) fun _ => h.put a w

theorem clear (n : Nat) (a : Word) : Preserves I (clear n a) := by
  induction n generalizing a with
  | zero => exact preserves_pure ()
  | succ n ih => exact (h.put a 0).bind fun _ => ih (a + 1)

theorem allocate (cls size : Word) : Preserves I (allocate cls size) := by
  intro s hs
  have hfill (base : Word) : Preserves I (do
      Machine.put base cls
      Machine.put (base + 1) size
      Machine.clear size.toInt.toNat (base + 2)
      return base + 2) :=
    (h.put _ _).bind fun _ => (h.put _ _).bind fun _ => (h.clear _ _).bind fun _ => preserves_pure _
  unfold Machine.allocate
  by_cases hsize : size < 0
  · rw [if_pos hsize]
    exact hs
  · rw [if_neg hsize]
    by_cases hroom : s.ht - size - 2 ≤ s.st
    · change Ends I _ ((if s.ht - size - 2 ≤ s.st then _ else _ : Action Word) s)
      rw [if_pos hroom]
      exact hs
    · change Ends I _ ((if s.ht - size - 2 ≤ s.st then _ else _ : Action Word) s)
      rw [if_neg hroom]
      exact hfill _ _ (h.taken hs hsize hroom)

theorem primitive (p : Prim) : Preserves I (primitive p) := by
  have hstack := h.offStack
  cases p with
  | alloc | newarr => exact hstack.pop.bind fun _ => (h.allocate _ _).bind fun _ => hstack.push _
  | newobj => exact hstack.pop2.bind fun _ => (h.allocate _ _).bind fun _ => hstack.push _
  | arrayupd | fieldupd =>
    exact hstack.pop3.bind fun _ => (preserves_element _ _ _).bind fun _ => h.put _ _
  | _ => exact hstack.primitive rfl

theorem effect {i : Instr} (hpop : Op.ofNumber? i.op ≠ some .pop)
    (hret : Op.ofNumber? i.op ≠ some .ret) (size : Nat) : Preserves I (effect size i) := by
  have hstack := h.offStack
  have haddress : Preserves I (address size i) := keeps_any
  have hnext : Preserves I next := keeps_any
  by_cases hstore : Op.ofNumber? i.op = some .store
  · rw [effect_of_store hstore]
    exact hstack.pop.bind fun _ => haddress.bind fun _ => (h.store _ _).bind fun _ => hnext
  · by_cases hstorei : Op.ofNumber? i.op = some .storei
    · rw [effect_of_storei hstorei]
      exact hstack.pop2.bind fun _ => (h.store _ _).bind fun _ => hnext
    · cases hcalled : i.called? with
      | none =>
        apply hstack.effect hstore hstorei hpop hret
        intro p hp
        cases hcalled.symm.trans hp
      | some p =>
        rw [effect_of_called hcalled]
        exact (h.primitive p).bind fun _ => hnext

end Guarded

end Actions

/-- The memory has its full size, and in it the stack lies below the heap. -/
structure State.Apart (s : State) : Prop where
  size : s.data.size = memorySize
  base : 0 ≤ s.st.toInt
  below : s.st.toInt ≤ s.ht.toInt
  heap : 0 < s.ht.toInt
  top : s.ht.toInt ≤ memorySize

/-- `RETURN` finds its results on the stack and the link of its frame in the memory. -/
def Leaves (n : Word) (s : State) : Prop :=
  (0 ≤ n.toInt ∧ n.toInt ≤ s.st.toInt) ∧ 0 ≤ s.lb.toInt ∧ s.lb.toInt + 2 < memorySize

/-- The instruction sets the stack top above the heap top or below the stack base. -/
def Strays (i : Instr) (s : State) : Prop :=
  match Op.ofNumber? i.op with
  | some .pop => s.ht.toInt < s.st.toInt - i.d.toInt
  | some .ret => Leaves i.n s ∧ ¬ (0 ≤ s.lb.toInt - i.d.toInt ∧ s.lb.toInt - i.d.toInt ≤ s.ht.toInt)
  | _ => False

/-- The instruction at hand strays. -/
def StraysNext (code : Code) (s : State) : Prop :=
  ∃ a, s.cp.index? code.size = some a ∧ Strays (code.instr a) s

theorem guarded_size : Guarded fun s => s.data.size = memorySize where
  stored _ _ hs := by simpa using hs
  pushed hs _ := hs
  popped hs _ := hs
  taken hs _ _ := hs
  linked _ _ hs := hs
  placed _ hs := hs
  heard _ hs := hs
  told _ hs := hs

/-- The room for a block is reckoned without wrapping around, because the heap top is positive. -/
theorem State.Apart.toInt_room {s : State} {size : Word} (hs : s.Apart) (hsize : 0 ≤ size.toInt) :
    (s.ht - size - 2).toInt = s.ht.toInt - size.toInt - 2 := by
  have hmax := size.toInt_lt
  have hheap := hs.heap
  have htop := hs.top
  have hmemory : memorySize = 65536 := rfl
  have htwo : (2 : Word).toInt = 2 := rfl
  have hfirst : (s.ht - size).toInt = s.ht.toInt - size.toInt :=
    Word.toInt_sub (by omega) (by omega)
  rw [Word.toInt_sub (by omega) (by omega), hfirst, htwo]

theorem guarded_apart : Guarded State.Apart where
  stored _ _ hs := ⟨by simpa using hs.size, hs.base, hs.below, hs.heap, hs.top⟩
  pushed := by
    intro s hs hroom
    have hone : (1 : Word).toInt = 1 := rfl
    have htop := hs.top
    have hbase := hs.base
    rw [Int64.le_iff_toInt_le] at hroom
    have hst : (s.st + 1).toInt = s.st.toInt + 1 := by
      rw [Word.toInt_add (by omega) (by simp [memorySize] at htop; omega), hone]
    have hbelow : (s.st + 1).toInt ≤ s.ht.toInt := by omega
    exact ⟨hs.size, by rw [hst]; omega, hbelow, hs.heap, hs.top⟩
  popped := by
    intro s hs hfull
    have hzero : (0 : Word).toInt = 0 := rfl
    have hbelow := hs.below
    rw [Int64.le_iff_toInt_le, hzero] at hfull
    have hst := Word.toInt_sub_one (by omega : 0 < s.st.toInt)
    have hbelow : (s.st - 1).toInt ≤ s.ht.toInt := by omega
    exact ⟨hs.size, by rw [hst]; omega, hbelow, hs.heap, hs.top⟩
  taken := by
    intro s size hs hsize hroom
    have hbase := hs.base
    have htop := hs.top
    rw [Word.lt_zero, Int.not_lt] at hsize
    have hnew := hs.toInt_room hsize
    have hassoc : s.ht - (size + 2) = s.ht - size - 2 := by grind
    rw [Int64.le_iff_toInt_le, hnew] at hroom
    have hbelow : s.st.toInt ≤ (s.ht - size - 2).toInt := by omega
    rw [hassoc]
    exact ⟨hs.size, hs.base, hbelow, by rw [hnew]; omega, by rw [hnew]; omega⟩
  linked _ _ hs := ⟨hs.size, hs.base, hs.below, hs.heap, hs.top⟩
  placed _ hs := ⟨hs.size, hs.base, hs.below, hs.heap, hs.top⟩
  heard _ hs := ⟨hs.size, hs.base, hs.below, hs.heap, hs.top⟩
  told _ hs := ⟨hs.size, hs.base, hs.below, hs.heap, hs.top⟩

theorem offStack_apart : OffStack State.Apart := Guarded.offStack guarded_apart

section Bounds

variable {s : State} {n d : Word} {i : Instr}

theorem pop_of_pos (hs : s.Apart) (hst : 0 < s.st.toInt) :
    ∃ w, pop s = .ok w { s with st := s.st - 1 } := by
  have hbelow := hs.below
  have htop := hs.top
  have hfull : ¬ s.st ≤ 0 := by
    rw [Int64.le_iff_toInt_le]
    exact Int.not_le.mpr hst
  have hindex : ∃ j, (s.st - 1).index? s.data.size = some j := by
    unfold Word.index?
    rw [dif_pos (by rw [hs.size, Word.toInt_sub_one hst]; omega)]
    exact ⟨_, rfl⟩
  obtain ⟨j, hj⟩ := hindex
  unfold pop
  rw [if_neg hfull]
  simp only [hj]
  exact ⟨_, rfl⟩

theorem pop_of_zero (hst : s.st.toInt = 0) : pop s = .error (.fault .stackUnderflow) s := by
  unfold pop
  rw [if_pos (by rw [Int64.le_iff_toInt_le, hst]; rfl)]

theorem popOnto_of_le (hs : s.Apart) {k : Nat} (above : List Word) (hk : k ≤ s.st.toInt) :
    ∃ ws, popOnto k above s = .ok ws { s with st := s.st - Word.ofNat k } := by
  induction k generalizing s above with
  | zero =>
    refine ⟨above, ?_⟩
    have hzero : s.st - Word.ofNat 0 = s.st := Int64.sub_zero _
    rw [hzero]
    rfl
  | succ k ih =>
    obtain ⟨w, hw⟩ := pop_of_pos hs (by omega)
    have hu := OffStack.pop offStack_apart s hs
    rw [hw] at hu
    have hrest : (k : Int) ≤ (s.st - 1).toInt := by
      rw [Word.toInt_sub_one (by omega)]
      omega
    obtain ⟨ws, hws⟩ := ih hu.1 (w :: above) hrest
    refine ⟨ws, ?_⟩
    rw [popOnto, EStateM.bind_of_ok hw, hws]
    have hsum : s.st - 1 - Word.ofNat k = s.st - Word.ofNat (k + 1) := by
      rw [← Word.ofNat_add_one]
      grind
    rw [hsum]

theorem popOnto_of_lt (hs : s.Apart) {k : Nat} {above : List Word} (hk : s.st.toInt < k) :
    Ends State.Apart (fun _ => False) (popOnto k above s) := by
  induction k generalizing s above with
  | zero => exact absurd hs.base (by omega)
  | succ k ih =>
    rw [popOnto]
    by_cases hst : s.st.toInt = 0
    · rw [EStateM.bind_of_error (pop_of_zero hst)]
      exact hs
    · have hbase := hs.base
      obtain ⟨w, hw⟩ := pop_of_pos hs (by omega)
      have hu := OffStack.pop offStack_apart s hs
      rw [hw] at hu
      rw [EStateM.bind_of_ok hw]
      apply ih hu.1
      rw [Word.toInt_sub_one (by omega)]
      omega

theorem popMany_of_le (hs : s.Apart) (hn : 0 ≤ n.toInt) (hst : n.toInt ≤ s.st.toInt) :
    ∃ ws, popMany n s = .ok ws { s with st := s.st - n } := by
  have hfew : ¬ (n < 0 ∨ maxResults < n) := by
    have hbelow := hs.below
    have htop := hs.top
    have hmemory : memorySize = 65536 := rfl
    have hmax : maxResults.toInt = 35184372088832 := rfl
    rw [Word.lt_zero, Int64.lt_iff_toInt_lt]
    omega
  obtain ⟨ws, hws⟩ := popOnto_of_le hs [] (by omega : (n.toInt.toNat : Int) ≤ s.st.toInt)
  have hpop : popMany n = popOnto n.toInt.toNat [] := if_neg hfew
  refine ⟨ws, ?_⟩
  rw [hpop, hws, Word.ofNat_toNat hn]

theorem popMany_of_lt (hs : s.Apart) (hn : ¬ (0 ≤ n.toInt ∧ n.toInt ≤ s.st.toInt)) :
    Ends State.Apart (fun _ => False) (popMany n s) := by
  by_cases hfew : n < 0 ∨ maxResults < n
  · have hcrash : popMany n = fun s => .error .crash s := if_pos hfew
    rw [hcrash]
    exact hs
  · have hpop : popMany n = popOnto n.toInt.toNat [] := if_neg hfew
    rw [Word.lt_zero] at hfew
    rw [hpop]
    exact popOnto_of_lt hs (by omega)

theorem keeps_fetch_at (a : Word) :
    Keeps State.Apart (fetch a) (fun _ => 0 ≤ a.toInt ∧ a.toInt < memorySize) := by
  intro s hs
  unfold fetch
  split
  · rename_i j hj
    have hlt : (j : Nat) < memorySize := Nat.lt_of_lt_of_eq j.isLt hs.size
    rw [Word.eq_of_index? hj, Word.toInt_ofNat (Nat.lt_trans hlt (by decide))]
    exact ⟨hs, by omega, by omega⟩
  · exact hs

theorem fetch_of_lt (hs : s.Apart) {a : Word} (ha : 0 ≤ a.toInt) (ha' : a.toInt < memorySize) :
    ∃ w, fetch a s = .ok w s := by
  have hindex : ∃ j, a.index? s.data.size = some j := by
    unfold Word.index?
    rw [dif_pos (by rw [hs.size]; omega)]
    exact ⟨_, rfl⟩
  obtain ⟨j, hj⟩ := hindex
  unfold fetch
  simp only [hj]
  exact ⟨_, rfl⟩

/-- The rest of a return, once the results and the link have been read. -/
def landFrame (results : List Word) (base d lb ob back : Word) : Action Word := do
  setSt (base - d)
  if base - d < 0 then fault (.returnBelowBase d)
  pushAll results
  fun s => .ok back { s with lb, ob }

theorem leaveFrame_of_not_leaves (hs : s.Apart) (hleaves : ¬ Leaves n s) :
    Ends State.Apart (fun _ => True) (leaveFrame n d s) := by
  unfold leaveFrame
  by_cases hcount : 0 ≤ n.toInt ∧ n.toInt ≤ s.st.toInt
  · obtain ⟨ws, hws⟩ := popMany_of_le hs hcount.1 hcount.2
    have hu := OffStack.popMany offStack_apart n s hs
    rw [hws] at hu
    rw [EStateM.bind_of_ok hws]
    -- One of the three words of the link is outside the memory.
    refine (keeps_fetch_at s.lb).bind (fun ob hfirst => ?_) _ hu.1
    refine Keeps.bind (preserves_fetch _) fun lb _ => (keeps_fetch_at _).bind fun back hlast => ?_
    have htwo : (2 : Word).toInt = 2 := rfl
    have hmemory : memorySize = 65536 := rfl
    have hthird : (s.lb + 2).toInt < memorySize := hlast.2
    rw [Word.toInt_add (by omega) (by omega), htwo] at hthird
    exact absurd ⟨hcount, hfirst.1, by omega⟩ hleaves
  · exact (popMany_of_lt hs hcount).bind fun _ hfalse => hfalse.elim

theorem leaveFrame_of_leaves (hs : s.Apart) (hleaves : Leaves n s) :
    ∃ ws lb ob back,
      leaveFrame n d s = landFrame ws s.lb d lb ob back { s with st := s.st - n } := by
  obtain ⟨⟨hn, hst⟩, hlb, hlink⟩ := hleaves
  have hmemory : memorySize = 65536 := rfl
  have hone : (1 : Word).toInt = 1 := rfl
  have htwo : (2 : Word).toInt = 2 := rfl
  obtain ⟨ws, hws⟩ := popMany_of_le hs hn hst
  have hu := OffStack.popMany offStack_apart n s hs
  rw [hws] at hu
  have hsecond : (s.lb + 1).toInt = s.lb.toInt + 1 := by
    rw [Word.toInt_add (by omega) (by omega), hone]
  have hthird : (s.lb + 2).toInt = s.lb.toInt + 2 := by
    rw [Word.toInt_add (by omega) (by omega), htwo]
  obtain ⟨ob, hob⟩ := fetch_of_lt hu.1 (a := s.lb) hlb (by omega)
  obtain ⟨lb, hlb'⟩ := fetch_of_lt hu.1 (a := s.lb + 1) (by omega) (by omega)
  obtain ⟨back, hback⟩ := fetch_of_lt hu.1 (a := s.lb + 2) (by omega) (by omega)
  refine ⟨ws, lb, ob, back, ?_⟩
  have hbase : look State.lb { s with st := s.st - n } = .ok s.lb { s with st := s.st - n } := rfl
  rw [leaveFrame, EStateM.bind_of_ok hws, EStateM.bind_of_ok hbase, EStateM.bind_of_ok hob,
    EStateM.bind_of_ok hlb', EStateM.bind_of_ok hback]
  rfl

/-- A return that lands between the stack base and the heap top keeps the two apart. -/
theorem landFrame_apart {ws : List Word} {base lb ob back : Word} (hs : s.Apart)
    (hbase : 0 ≤ (base - d).toInt) (hbelow : (base - d).toInt ≤ s.ht.toInt) :
    Ends State.Apart (fun _ => True) (landFrame ws base d lb ob back s) := by
  have hland : ({ s with st := base - d } : State).Apart :=
    ⟨hs.size, hbase, hbelow, hs.heap, hs.top⟩
  have hrest : Preserves State.Apart (do
      if base - d < 0 then fault (.returnBelowBase d)
      pushAll ws
      fun s => .ok back { s with lb, ob }) :=
    keeps_check ((OffStack.pushAll offStack_apart ws).bind fun _ _ hu =>
      ⟨OffStack.linked offStack_apart lb ob hu, trivial⟩)
  exact hrest _ hland

theorem pushAll_above (ws : List Word) (habove : s.ht.toInt < s.st.toInt) :
    Ends (fun u => u.ht.toInt < u.st.toInt) (fun _ => True) (pushAll ws s) := by
  cases ws with
  | nil => exact ⟨habove, trivial⟩
  | cons w ws =>
    have hfull : push w s = .error (.fault .stackOverflow) s := by
      rw [push, if_pos (by rw [Int64.le_iff_toInt_le]; omega)]
    rw [pushAll, EStateM.bind_of_error hfull]
    exact habove

theorem landFrame_strays {ws : List Word} {base lb ob back : Word}
    (hland : ¬ (0 ≤ (base - d).toInt ∧ (base - d).toInt ≤ s.ht.toInt)) :
    Ends (fun u => ¬ u.Apart) (fun _ => True) (landFrame ws base d lb ob back s) := by
  have hset : setSt (base - d) s = .ok () { s with st := base - d } := rfl
  rw [landFrame, EStateM.bind_of_ok hset]
  by_cases hneg : base - d < 0
  · rw [if_pos hneg]
    intro hu
    exact Int.not_le.mpr (Word.lt_zero.mp hneg) hu.base
  · rw [if_neg hneg]
    rw [Word.lt_zero] at hneg
    have habove : s.ht.toInt < (base - d).toInt := by omega
    have hpush := pushAll_above (s := { s with st := base - d }) ws habove
    have hlink :=
      hpush.bind (f := fun _ => (fun s => .ok back { s with lb, ob } : Action Word)) (R := fun _ =>
        True)
      fun _ _ u hu => ⟨hu, trivial⟩
    exact hlink.of_state fun u hu happart => Int.not_le.mpr hu happart.below

theorem leaveFrame_apart (hs : s.Apart)
    (hland : Leaves n s → 0 ≤ s.lb.toInt - d.toInt ∧ s.lb.toInt - d.toInt ≤ s.ht.toInt) :
    Ends State.Apart (fun _ => True) (leaveFrame n d s) := by
  by_cases hleaves : Leaves n s
  · obtain ⟨ws, lb, ob, back, heq⟩ := leaveFrame_of_leaves (d := d) hs hleaves
    have hu := OffStack.popMany offStack_apart n s hs
    obtain ⟨vs, hvs⟩ := popMany_of_le hs hleaves.1.1 hleaves.1.2
    rw [hvs] at hu
    have hmemory : memorySize = 65536 := rfl
    have hlink := hleaves.2
    have hbounds :=
      (Word.toInt_sub_between s.ht.toInt hlink.1 (by omega) (by have := hs.top; omega)).mpr
        (hland hleaves)
    rw [heq]
    exact landFrame_apart hu.1 hbounds.1 hbounds.2
  · exact leaveFrame_of_not_leaves hs hleaves

theorem leaveFrame_strays (hs : s.Apart) (hleaves : Leaves n s)
    (hland : ¬ (0 ≤ s.lb.toInt - d.toInt ∧ s.lb.toInt - d.toInt ≤ s.ht.toInt)) :
    Ends (fun u => ¬ u.Apart) (fun _ => True) (leaveFrame n d s) := by
  obtain ⟨ws, lb, ob, back, heq⟩ := leaveFrame_of_leaves (d := d) hs hleaves
  have hmemory : memorySize = 65536 := rfl
  have hlink := hleaves.2
  rw [heq]
  apply landFrame_strays
  exact fun hbounds =>
    hland ((Word.toInt_sub_between s.ht.toInt hlink.1 (by omega) (by have := hs.top; omega)).mp
    hbounds)

theorem drop_apart (hs : s.Apart) (hland : s.st.toInt - d.toInt ≤ s.ht.toInt) :
    Ends State.Apart (fun _ => True) (drop d s) := by
  unfold drop
  split
  · exact hs
  · rename_i hd
    rw [Int64.lt_iff_toInt_lt] at hd
    have hmemory : memorySize = 65536 := rfl
    have hbelow := hs.below
    have htop := hs.top
    obtain ⟨hbase, hbelow⟩ :=
      (Word.toInt_sub_between s.ht.toInt hs.base (by omega) (by omega)).mpr ⟨by omega, hland⟩
    exact ⟨⟨hs.size, hbase, hbelow, hs.heap, hs.top⟩, trivial⟩

theorem drop_strays (hs : s.Apart) (hland : s.ht.toInt < s.st.toInt - d.toInt) :
    Ends (fun u => ¬ u.Apart) (fun _ => True) (drop d s) := by
  have hmemory : memorySize = 65536 := rfl
  have hbelow := hs.below
  have htop := hs.top
  have hheap := hs.heap
  unfold drop
  split
  · rename_i hd
    rw [Int64.lt_iff_toInt_lt] at hd
    omega
  · refine ⟨fun hu => ?_, trivial⟩
    have hbounds :=
      (Word.toInt_sub_between s.ht.toInt hs.base (by omega) (by omega)).mp ⟨hu.base, hu.below⟩
    omega

theorem execute_apart (hs : s.Apart) (hstrays : ¬ Strays i s) (size : Nat) :
    Ends State.Apart (fun _ => True) (execute size i s) := by
  apply OffStack.execute offStack_apart
  by_cases hpop : Op.ofNumber? i.op = some .pop
  · simp only [Strays, hpop, Int.not_lt] at hstrays
    rw [effect_of_pop hpop]
    exact (drop_apart hs hstrays).bind fun _ _ => keeps_any
  · by_cases hret : Op.ofNumber? i.op = some .ret
    · simp only [Strays, hret] at hstrays
      rw [effect_of_ret hret]
      exact leaveFrame_apart hs fun hleaves => by_contra fun hland => hstrays ⟨hleaves, hland⟩
    · exact Guarded.effect guarded_apart hpop hret size s hs

theorem execute_strays (hs : s.Apart) (hstrays : Strays i s) (size : Nat) :
    Ends (fun u => ¬ u.Apart) (fun _ => True) (execute size i s) := by
  have hplaced {t : Word} {u : State} (hu : ¬ u.Apart) : ¬ ({ u with cp := t } : State).Apart :=
    fun h => hu ⟨h.size, h.base, h.below, h.heap, h.top⟩
  have heffect : Ends (fun u => ¬ u.Apart) (fun _ => True) (effect size i s) := by
    unfold Strays at hstrays
    split at hstrays
    · rename_i hpop
      rw [effect_of_pop hpop]
      exact (drop_strays hs hstrays).bind fun _ _ => keeps_any
    · rename_i hret
      rw [effect_of_ret hret]
      exact leaveFrame_strays hs hstrays.1 hstrays.2
    · exact hstrays.elim
  exact heffect.bind fun t _ u hu => ⟨hplaced hu, trivial⟩

theorem execute_size (hs : s.data.size = memorySize) (size : Nat) :
    Ends (fun u => u.data.size = memorySize) (fun _ => True) (execute size i s) := by
  have hstack := Guarded.offStack guarded_size
  apply hstack.execute
  by_cases hpop : Op.ofNumber? i.op = some .pop
  · rw [effect_of_pop hpop]
    exact (preserves_drop (fun _ hs => hs) i.d).bind (fun _ => keeps_any) s hs
  · by_cases hret : Op.ofNumber? i.op = some .ret
    · rw [effect_of_ret hret]
      exact hstack.leaveFrame (fun _ hs => hs) i.n i.d s hs
    · exact Guarded.effect guarded_size hpop hret size s hs

end Bounds

theorem run_add {code : Code} {n steps : Nat} {s : State}
    (h : (run code n steps s).ending = .outOfFuel) (m : Nat) :
    run code (n + m) steps s =
      run code m (run code n steps s).steps (run code n steps s).state := by
  induction n generalizing steps s with
  | zero =>
    rw [Nat.zero_add]
    rfl
  | succ n ih =>
    obtain ⟨a, s', -, -, -, hrun⟩ := run_first h
    rw [hrun] at h
    rw [Nat.add_right_comm, hrun, hrun]
    exact ih h

theorem run_succ {code : Code} {n steps : Nat} {s : State}
    (h : (run code n steps s).ending = .outOfFuel) :
    run code (n + 1) steps s = run code 1 (run code n steps s).steps (run code n steps s).state :=
  run_add h 1

theorem run_strays {code : Code} (steps : Nat) {s : State} (hs : s.Apart)
    (hstrays : StraysNext code s) : ¬ (run code 1 steps s).state.Apart := by
  obtain ⟨a, ha, hstrays⟩ := hstrays
  have hop : (code.instr a).op ≠ Op.halt.number := by
    intro hop
    simp [Strays, hop, Op.ofNumber?_number] at hstrays
  have hends := execute_strays hs hstrays code.size
  simp only [run, ha, hop, if_false]
  cases he : execute code.size (code.instr a) s with
  | ok u s' =>
    rw [he] at hends
    exact hends.1
  | error e s' =>
    rw [he] at hends
    exact hends

theorem initial_apart (input : Option Input) (sink : Sink) : (State.initial input sink).Apart where
  size := Array.size_replicate
  base := Int.le_refl 0
  below := (by decide : 0 ≤ (Word.ofNat memorySize).toInt)
  heap := (by decide : 0 < (Word.ofNat memorySize).toInt)
  top := (by decide : (Word.ofNat memorySize).toInt ≤ memorySize)

/-- The memory keeps its size in every run. Stack and heap lie apart in all states of a run exactly
as long as no instruction strays: `POP` of a negative number of words that lifts the stack into the
heap, or `RETURN` to a stack top that is not between the stack base and the heap top. -/
theorem run_apart_iff (code : Code) (input : Option Input) (sink : Sink) (n : Nat) :
    (run code n 0 (.initial input sink)).state.data.size = memorySize ∧
      ((∀ k ≤ n, (run code k 0 (.initial input sink)).state.Apart) ↔
        ∀ k < n, (run code k 0 (.initial input sink)).ending = .outOfFuel →
          ¬ StraysNext code (run code k 0 (.initial input sink)).state) := by
  refine ⟨?_, ?_, ?_⟩
  · exact run_keeps (fun _ => True) (fun s a hs _ _ _ => execute_size hs code.size)
      Array.size_replicate
      fun _ _ _ => trivial
  · intro happart k hk hending hstrays
    apply run_strays (run code k 0 (.initial input sink)).steps (happart k (by omega)) hstrays
    rw [← run_succ hending]
    exact happart (k + 1) hk
  · intro hfine k hk
    refine run_keeps (¬ StraysNext code ·) (fun s a hs hnot ha _ => ?_) (initial_apart input sink)
      fun j hj => hfine j (by omega)
    exact execute_apart hs (fun hstrays => hnot ⟨a, ha, hstrays⟩) code.size

/-- `POP -70000` lifts the stack top over the heap top and the whole memory, and the run goes on to
its end. -/
theorem pop_negative_leaves_memory :
    (run #[.of .pop 0 .zr (-70000), .of .halt 0 .zr 0] 2 0 (.initial none .accept)).ending =
      .halted ∧
      (run #[.of .pop 0 .zr (-70000), .of .halt 0 .zr 0] 2 0 (.initial none .accept)).state.st =
        70000 ∧
      (run #[.of .pop 0 .zr (-70000), .of .halt 0 .zr 0] 2 0 (.initial none .accept)).state.ht =
        65536 := by
  decide +kernel

end Machine

end MiniJava
