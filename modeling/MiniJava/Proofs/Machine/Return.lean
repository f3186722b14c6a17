import MiniJava.Proofs.Machine.Heap
/-!
Calls and returns. A call saves three words above its arguments, and a return reads them before it
puts its results where the arguments and these words have been. So a callee that leaves alone what
lies below its own words comes back to the caller as it left it, whatever it does above.
-/
namespace MiniJava.Machine

namespace State

/-- The memory has its full size and the stack lies in it, below the heap. -/
structure Bounded (s : State) : Prop where
  size : s.data.size = memorySize
  base : 0 ≤ s.st.toInt
  below : s.st.toInt ≤ s.ht.toInt
  top : s.ht.toInt ≤ memorySize

theorem Bounded.apart {s : State} (hs : s.Bounded) (hheap : 0 < s.ht.toInt) : s.Apart :=
  ⟨hs.size, hs.base, hs.below, hheap, hs.top⟩

/-- The memory with words written one after the other from address `m` on. -/
def fill (data : Array Word) : Nat → List Word → Array Word
  | _, [] => data
  | m, w :: ws => fill (data.setIfInBounds m w) (m + 1) ws

/-- The state after words were pushed on a stack of `m` words. -/
def pushed (s : State) (m : Nat) (ws : List Word) : State :=
  { s with data := fill s.data m ws, st := Word.ofNat (m + ws.length) }

end State

section Words

variable {s : State} {w : Word} {m n : Nat}

theorem size_fill (data : Array Word) (m : Nat) (ws : List Word) :
    (State.fill data m ws).size = data.size := by
  induction ws generalizing data m with
  | nil => rfl
  | cons w ws ih => rw [State.fill, ih, Array.size_setIfInBounds]

/-- A word that was filled in is read where it was put, and every other word is as before. -/
theorem getD_fill {data : Array Word} {ws : List Word} (h : m + ws.length ≤ data.size) :
    (State.fill data m ws).getD n 0 = if m ≤ n then ws.getD (n - m) (data.getD n 0)
      else data.getD n 0 := by
  induction ws generalizing data m with
  | nil => simp [State.fill]
  | cons w ws ih =>
    rw [List.length_cons] at h
    rw [State.fill, ih (by rw [Array.size_setIfInBounds]; omega)]
    by_cases hlt : n < m
    · rw [if_neg (by omega), if_neg (by omega), getD_setIfInBounds (by omega), if_neg (by omega)]
    · by_cases heq : n = m
      · subst heq
        rw [if_neg (by omega), if_pos (by omega), getD_setIfInBounds (by omega), if_pos rfl,
          Nat.sub_self]
        rfl
      · have hsucc : n - m = n - (m + 1) + 1 := by omega
        rw [if_pos (by omega), if_pos (by omega), getD_setIfInBounds (by omega), if_neg heq, hsucc]
        rfl

theorem word_pushed {ws : List Word} (h : m + ws.length ≤ s.data.size) :
    (s.pushed m ws).word n = if m ≤ n then ws.getD (n - m) (s.word n) else s.word n := getD_fill h

theorem pushAll_words {ws : List Word} (hs : s.Apart) (hm : s.st = Word.ofNat m)
    (hroom : m + ws.length ≤ s.ht.toInt) : pushAll ws s = .ok () (s.pushed m ws) := by
  induction ws generalizing s m with
  | nil =>
    rw [State.pushed, State.fill, List.length_nil, Nat.add_zero, ← hm]
    rfl
  | cons w ws ih =>
    rw [List.length_cons] at hroom
    have hpush := push_word (w := w) hs hm (by omega)
    have hu := OffStack.push offStack_apart w s hs
    rw [hpush] at hu
    rw [pushAll, EStateM.bind_of_ok hpush, ih hu.1 rfl (by push_cast at hroom ⊢; omega)]
    rw [State.pushed, State.pushed, State.fill, List.length_cons, Nat.add_assoc, Nat.add_comm 1]

theorem execute_loadl {i : Instr} {size : Nat} (hop : Op.ofNumber? i.op = some .loadl)
    (hs : s.Apart) (hm : s.st = Word.ofNat m) (hroom : (m : Int) < s.ht.toInt) :
    execute size i s =
      .ok () { s with
        data := s.data.setIfInBounds m i.d, st := Word.ofNat (m + 1), cp := s.cp + 1 } := by
  have hpush := push_word (w := i.d) hs hm hroom
  have heffect : effect size i = push i.d >>= fun _ => next := by
    delta effect
    rw [hop]
  have hnext : (push i.d >>= fun _ => next) s = _ := EStateM.bind_of_ok hpush
  rw [execute, heffect]
  exact EStateM.bind_of_ok hnext

theorem popOnto_words (hs : s.Apart) (hm : s.height = m + n) (above : List Word) :
    popOnto n above s = .ok ((List.range n).map (fun r => s.word (m + r)) ++ above)
      { s with st := Word.ofNat m } := by
  induction n generalizing s above with
  | zero =>
    rw [Nat.add_zero] at hm
    rw [← hm, ← hs.st_eq]
    rfl
  | succ n ih =>
    obtain ⟨hu, hheight⟩ := hs.lower (m := m + n) (by omega)
    have hpop := pop_word hs (m := m + n) hm
    rw [popOnto, EStateM.bind_of_ok hpop, ih hu hheight, List.range_succ, List.map_append,
      List.append_assoc]
    rfl

theorem popMany_words {k : Word} (hs : s.Apart) (hk : k.toInt = n) (hm : s.height = m + n) :
    popMany k s = .ok ((List.range n).map fun r => s.word (m + r))
      { s with st := Word.ofNat m } := by
  have hfew : ¬ (k < 0 ∨ maxResults < k) := by
    have hheight := hs.height_le
    have htop := hs.top
    have hmemory : memorySize = 65536 := rfl
    have hmax : maxResults.toInt = 35184372088832 := rfl
    rw [Word.lt_zero, Int64.lt_iff_toInt_lt]
    omega
  have hpop : popMany k = popOnto n [] := (if_neg hfew).trans (by rw [hk, Int.toNat_natCast])
  rw [hpop, popOnto_words hs hm, List.append_nil]

end Words

section Frames

variable {s t : State} {i : Instr} {target object : Word} {base n d size : Nat}

theorem push_eq_ok {w : Word} {m : Nat} (hs : s.Apart) (hm : s.height = m)
    (h : push w s = .ok () t) :
    (m : Int) < s.ht.toInt ∧
      t = { s with data := s.data.setIfInBounds m w, st := Word.ofNat (m + 1) } ∧
      t.Apart ∧ t.height = m + 1 := by
  have hst : s.st = Word.ofNat m := hm ▸ hs.st_eq
  have htop := hs.top
  have hheight := hs.height_le
  have hmemory : memorySize = 65536 := rfl
  by_cases hroom : (m : Int) < s.ht.toInt
  · have happart := OffStack.push offStack_apart w s hs
    rw [h] at happart
    rw [push_word hs hst hroom] at h
    cases h
    refine ⟨hroom, rfl, happart.1, ?_⟩
    rw [State.height, Word.toInt_ofNat (by omega), Int.toNat_natCast]
  · have hfull : s.ht ≤ s.st := by
      rw [Int64.le_iff_toInt_le, hst, Word.toInt_ofNat (by omega)]
      omega
    rw [push, if_pos hfull] at h
    cases h

/-- A call that finds room saves three words above its arguments and opens its frame there. -/
theorem call_words (hs : s.Apart) (hbase : s.height = base) (hroom : base + 3 ≤ s.ht.toInt) :
    call target object s =
      .ok target { s.pushed base [s.ob, s.lb, s.cp + 1]
      with lb := Word.ofNat base, ob := object } := by
  have hst : s.st = Word.ofNat base := hbase ▸ hs.st_eq
  have hfirst := push_word (w := s.ob) hs hst (by omega)
  obtain ⟨-, -, hu, hheight⟩ := push_eq_ok hs hbase hfirst
  have hsecond := push_word (w := s.lb) hu rfl (by push_cast; omega)
  obtain ⟨-, -, hv, -⟩ := push_eq_ok hu hheight hsecond
  have hthird := push_word (w := s.cp + 1) hv rfl (by push_cast; omega)
  rw [← hst]
  exact (EStateM.bind_of_ok hfirst).trans
    ((EStateM.bind_of_ok hsecond).trans (EStateM.bind_of_ok hthird))

theorem state_of_call {a : Word} (hs : s.Apart) (hbase : s.height = base)
    (h : call target object s = .ok a t) :
    base + 3 ≤ s.ht.toInt ∧
      t = { s.pushed base [s.ob, s.lb, s.cp + 1] with lb := Word.ofNat base, ob := object } := by
  obtain ⟨_, _, hlook, h⟩ := EStateM.bind_eq_ok.mp h
  cases hlook
  obtain ⟨_, _, hlook, h⟩ := EStateM.bind_eq_ok.mp h
  cases hlook
  obtain ⟨_, u, hfirst, h⟩ := EStateM.bind_eq_ok.mp h
  obtain ⟨-, rfl, hu, hheight⟩ := push_eq_ok hs hbase hfirst
  obtain ⟨_, _, hlook, h⟩ := EStateM.bind_eq_ok.mp h
  cases hlook
  obtain ⟨_, v, hsecond, h⟩ := EStateM.bind_eq_ok.mp h
  obtain ⟨-, rfl, hv, hheight⟩ := push_eq_ok hu hheight hsecond
  obtain ⟨_, _, hlook, h⟩ := EStateM.bind_eq_ok.mp h
  cases hlook
  obtain ⟨_, w, hthird, h⟩ := EStateM.bind_eq_ok.mp h
  obtain ⟨hroom, rfl, -⟩ := push_eq_ok hv hheight hthird
  cases h
  refine ⟨?_, by rw [← hbase, ← hs.st_eq]; rfl⟩
  have hlast : ((base + 2 : Nat) : Int) < s.ht.toInt := hroom
  omega

/-- A return takes the results from the top, reads the link of the frame and pushes the results in
place of the arguments. -/
theorem leaveFrame_words {count drop : Word} (ht : t.Apart) (hlb : t.lb = Word.ofNat base)
    (hcount : count.toInt = n) (hdrop : drop.toInt = d) (hd : d ≤ base)
    (hroom : base + 3 + n ≤ t.height) :
    leaveFrame count drop t =
      .ok (t.word (base + 2))
      { t.pushed (base - d) ((List.range n).map fun r => t.word (t.height - n + r)) with
        lb := t.word (base + 1), ob := t.word base } := by
  have hmemory : memorySize = 65536 := rfl
  have hheight := ht.height_le
  have htop := ht.top
  have hpop := popMany_words ht hcount (m := t.height - n) (by omega)
  obtain ⟨hu, -⟩ := ht.lower (m := t.height - n) (by omega)
  have hbase (k : Nat) (hk : k ≤ 2) : (t.lb + Word.ofNat k).toInt = (base + k : Nat) := by
    rw [hlb, ← Word.ofNat_add, Word.toInt_ofNat (by omega)]
  have hob :=
    fetch_word hu (a := t.lb) (n := base) (by rw [hlb, Word.toInt_ofNat (by omega)]) (by omega)
  have hsaved := fetch_word hu (hbase 1 (by omega)) (by omega)
  have hback := fetch_word hu (hbase 2 (by omega)) (by omega)
  -- What is left of the stack is the caller's, and the results fit above it.
  have hland : t.lb - drop = Word.ofNat (base - d) := by
    have hword : drop = Word.ofNat d := by
      rw [← Word.ofNat_toNat (w := drop) (by omega), hdrop]
      rfl
    rw [Word.ofNat_sub hd, hlb, hword]
  obtain ⟨hv, -⟩ := ht.lower (m := base - d) (by omega)
  have hfits :
      ((base - d : Nat) : Int) + ((List.range n).map fun r => t.word (t.height - n + r)).length ≤
        t.ht.toInt := by
    rw [List.length_map, List.length_range]
    omega
  have hpush := pushAll_words hv rfl hfits
  have hstays : ¬ t.lb - drop < 0 := by
    rw [hland, Word.lt_zero, Word.toInt_ofNat (by omega)]
    omega
  refine (EStateM.bind_of_ok hpop).trans
    ((EStateM.bind_of_ok hob).trans ((EStateM.bind_of_ok hsaved).trans
    ((EStateM.bind_of_ok hback).trans ?_)))
  change ((if t.lb - drop < 0 then _ else _ : Action Word) { t with st := t.lb - drop }) = _
  rw [if_neg hstays, hland]
  exact EStateM.bind_of_ok hpush

end Frames

/-- A call of code is at hand: `CALL` of code, or `CALLI`, which takes the object off the stack. The
frame is opened above `base` words. -/
inductive Calls (i : Instr) (s : State) (base : Nat) : Prop
  | direct : Op.ofNumber? i.op = some .call → i.r ≠ Reg.pb.number → s.height = base → Calls i s base
  | onObject : Op.ofNumber? i.op = some .calli → s.height = base + 1 → Calls i s base

/-- A return with `n` results from the frame above `base` words is at hand, which drops `d` of these
words. -/
structure Returns (code : Code) (t : State) (base n d : Nat) : Prop where
  instr : ∃ j, t.cp.index? code.size = some j ∧ Op.ofNumber? (code.instr j).op = some .ret ∧
    (code.instr j).n.toInt = n ∧ (code.instr j).d.toInt = d
  frame : t.lb.toInt = base
  args : d ≤ base
  results : base + 3 + n ≤ t.st.toInt
  below : t.st.toInt ≤ t.ht.toInt
  top : t.ht.toInt ≤ memorySize

/-- The state `u` is that of the caller in `s` behind its call, with the top `n` words of the callee
in `t` in place of the `d` words that were dropped. -/
structure Resumes (s t u : State) (base n d : Nat) : Prop where
  lb : u.lb = s.lb
  ob : u.ob = s.ob
  cp : u.cp = s.cp + 1
  st : u.st.toInt = base - d + n
  below : ∀ m < base - d, u.word m = s.word m
  results : ∀ r < n, u.word (base - d + r) = t.word (t.height - n + r)

section Run

variable {code : Code} {s t : State} {i : Instr} {base n d size : Nat}

theorem State.Bounded.apart_of_call {a target object : Word} (hs : s.Bounded)
    (h : call target object s = .ok a t) : s.Apart := by
  obtain ⟨_, _, hlook, h⟩ := EStateM.bind_eq_ok.mp h
  cases hlook
  obtain ⟨_, _, hlook, h⟩ := EStateM.bind_eq_ok.mp h
  cases hlook
  obtain ⟨_, u, hpush, -⟩ := EStateM.bind_eq_ok.mp h
  unfold push at hpush
  split at hpush
  · cases hpush
  · rename_i hroom
    have hbase := hs.base
    rw [Int64.le_iff_toInt_le] at hroom
    exact hs.apart (by omega)

/-- What a call leaves behind for its return. -/
structure Saves (s t : State) (base : Nat) : Prop where
  ob : t.word base = s.ob
  lb : t.word (base + 1) = s.lb
  cp : t.word (base + 2) = s.cp + 1
  below : ∀ m < base, t.word m = s.word m

theorem saves_of_call {a target object : Word} (hs : s.Apart) (hbase : s.height = base)
    (h : call target object s = .ok a t) : Saves s t base := by
  obtain ⟨hroom, rfl⟩ := state_of_call hs hbase h
  have htop := hs.top
  have hsize : base + [s.ob, s.lb, s.cp + 1].length ≤ s.data.size := by
    rw [hs.size]
    exact Int.ofNat_le.mp (Int.le_trans hroom htop)
  have hword (n : Nat) :
      State.word { s.pushed base [s.ob, s.lb, s.cp + 1] with lb := Word.ofNat base, ob := object }
      n =
        if base ≤ n then [s.ob, s.lb, s.cp + 1].getD (n - base) (s.word n) else s.word n :=
        word_pushed hsize
  constructor
  · rw [hword, if_pos (Nat.le_refl _), Nat.sub_self]
    rfl
  · rw [hword, if_pos (Nat.le_add_right _ _), Nat.add_sub_cancel_left]
    rfl
  · rw [hword, if_pos (Nat.le_add_right _ _), Nat.add_sub_cancel_left]
    rfl
  · intro m hm
    rw [hword, if_neg (by omega)]

theorem saves_of_execute (hs : s.Bounded) (hcall : Calls i s base)
    (h : execute size i s = .ok () t) : Saves s t base := by
  obtain ⟨a, u, heffect, h⟩ := EStateM.bind_eq_ok.mp h
  cases h
  suffices hsaves : Saves s u base from ⟨hsaves.ob, hsaves.lb, hsaves.cp, hsaves.below⟩
  cases hcall with
  | direct hop hreg hbase =>
    rw [effect_of_call hop hreg] at heffect
    obtain ⟨_, _, hlook, heffect⟩ := EStateM.bind_eq_ok.mp heffect
    cases hlook
    obtain ⟨_, _, hlook, hdone⟩ := EStateM.bind_eq_ok.mp heffect
    cases hlook
    exact saves_of_call (hs.apart_of_call hdone) hbase hdone
  | onObject hop hbase =>
    have hheap : 0 < s.ht.toInt := by
      have hbelow := hs.below
      unfold State.height at hbase
      omega
    have happart := hs.apart hheap
    obtain ⟨hv, hheight⟩ := happart.lower (m := base) (by omega)
    rw [effect_of_calli hop, EStateM.bind_of_ok (pop_word happart hbase)] at heffect
    obtain ⟨_, _, hlook, hdone⟩ := EStateM.bind_eq_ok.mp heffect
    cases hlook
    have hsaves := saves_of_call hv hheight hdone
    exact ⟨hsaves.ob, hsaves.lb, hsaves.cp, hsaves.below⟩

theorem execute_returns {start : State} (hsize : t.data.size = memorySize)
    (hstart : Saves s start base) (hkept : ∀ m < base + 3, t.word m = start.word m)
    (hreturns : Returns code t base n d) :
    ∃ j u, t.cp.index? code.size = some j ∧ (code.instr j).op ≠ Op.halt.number ∧
      execute code.size (code.instr j) t = .ok () u ∧ Resumes s t u base n d := by
  obtain ⟨j, hj, hop, hcount, hdrop⟩ := hreturns.instr
  have hmemory : memorySize = 65536 := rfl
  have hresults := hreturns.results
  have hbelow := hreturns.below
  have htop := hreturns.top
  have hargs := hreturns.args
  have ht : t.Apart := ⟨hsize, by omega, hbelow, by omega, htop⟩
  have hheight := ht.height_le
  have hroom : base + 3 + n ≤ t.height := by
    unfold State.height
    omega
  have hlb : t.lb = Word.ofNat base := by
    rw [← Word.ofNat_toNat (w := t.lb) (by rw [hreturns.frame]; omega), hreturns.frame]
    rfl
  have hleave : effect code.size (code.instr j) t = _ :=
    (congrFun (effect_of_ret hop) t).trans (leaveFrame_words ht hlb hcount hdrop hargs hroom)
  have hhalt : (code.instr j).op ≠ Op.halt.number := by
    intro h
    rw [h, Op.ofNumber?_number] at hop
    cases hop
  refine ⟨j, _, hj, hhalt, EStateM.bind_of_ok hleave, ?_⟩
  have hlength : base - d + ((List.range n).map fun r => t.word (t.height - n + r)).length ≤
      t.data.size := by
    rw [hsize, List.length_map, List.length_range]
    omega
  have hword (m : Nat) :
      (t.pushed (base - d) ((List.range n).map fun r => t.word (t.height - n + r))).word m = _ :=
    word_pushed hlength
  constructor
  · exact (hkept (base + 1) (by omega)).trans hstart.lb
  · exact (hkept base (by omega)).trans hstart.ob
  · exact (hkept (base + 2) (by omega)).trans hstart.cp
  · change (Word.ofNat _).toInt = _
    rw [List.length_map, List.length_range, Word.toInt_ofNat (by omega)]
    omega
  · intro m hm
    exact (hword m).trans
      ((if_neg (by omega)).trans ((hkept m (by omega)).trans (hstart.below m (by omega))))
  · intro r hr
    refine (hword (base - d + r)).trans ((if_pos (by omega)).trans ?_)
    simp [hr]

/-- A return undoes its call. Whatever the callee does above the words that the call has saved, and
whatever it calls in turn: if these words and the caller's are as before when it returns from the
same frame, the return succeeds and the caller goes on with its own registers and words and with the
results on top. -/
theorem return_undoes_call {k steps : Nat} {a : Fin code.size} (hs : s.Bounded)
    (ha : s.cp.index? code.size = some a) (hcall : Calls (code.instr a) s base)
    (hcallee : (run code (k + 1) steps s).ending = .outOfFuel)
    (hkept : ∀ m < base + 3, (run code (k + 1) steps s).state.word m =
      (run code 1 steps s).state.word m)
    (hreturns : Returns code (run code (k + 1) steps s).state base n d) :
    (run code (k + 2) steps s).ending = .outOfFuel ∧
      Resumes s (run code (k + 1) steps s).state (run code (k + 2) steps s).state base n d := by
  have hsize : (run code (k + 1) steps s).state.data.size = memorySize :=
    run_keeps (fun _ => True) (fun s a hs _ _ _ => execute_size hs code.size) hs.size fun _ _ _ =>
      trivial
  obtain ⟨a', start, ha', -, hfirst, hrun⟩ := run_first hcallee
  cases ha.symm.trans ha'
  have hone : (run code 1 steps s).state = start := by
    rw [hrun 0]
    rfl
  rw [hone] at hkept
  obtain ⟨j, u, hj, hhalt, hreturn, hresumes⟩ :=
    execute_returns hsize (saves_of_execute hs hcall hfirst) hkept hreturns
  have hlast : run code (k + 2) steps s = run code 0 ((run code (k + 1) steps s).steps + 1) u := by
    rw [run_succ hcallee, run_of_ok hj hhalt hreturn]
  rw [hlast]
  exact ⟨rfl, hresumes⟩

end Run

/-- A method that gives 7 for its argument, and the call of it: `CALLI 1[CB]`, `LOADL 7` and `RETURN
(1) 1` -/
def givesSeven : Code := #[.of .calli 0 .cb 1, .of .loadl 0 .zr 7, .of .ret 1 .zr 1]

/-- Three words on the stack: one of the caller's, the argument and the object. -/
def caller (data : Array Word) : State :=
  { data, st := 3, lb := 30, ob := 40, ht := Word.ofNat memorySize, cp := 0,
    input := none, output := { sink := .accept } }

/-- The frame of the method, above what the call has saved. -/
def callee (data : Array Word) : State :=
  { (caller data).pushed 2 [40, 30, 1] with lb := 2, ob := (caller data).word 2, cp := 1 }

section Seven

variable {data : Array Word} (hsize : data.size = memorySize)

include hsize

theorem caller_apart : (caller data).Apart where
  size := hsize
  base := (by decide : 0 ≤ (3 : Word).toInt)
  below := (by decide : (3 : Word).toInt ≤ (Word.ofNat memorySize).toInt)
  heap := (by decide : 0 < (Word.ofNat memorySize).toInt)
  top := (by decide : (Word.ofNat memorySize).toInt ≤ memorySize)

theorem callee_apart : (callee data).Apart where
  size := (size_fill _ _ _).trans hsize
  base := (by decide : 0 ≤ (Word.ofNat 5).toInt)
  below := (by decide : (Word.ofNat 5).toInt ≤ (Word.ofNat memorySize).toInt)
  heap := (by decide : 0 < (Word.ofNat memorySize).toInt)
  top := (by decide : (Word.ofNat memorySize).toInt ≤ memorySize)

theorem caller_calls : run givesSeven 1 0 (caller data) = ⟨callee data, 1, .outOfFuel⟩ := by
  have hs := caller_apart hsize
  obtain ⟨hv, hheight⟩ := hs.lower (m := 2) (show 2 ≤ (3 : Word).toInt.toNat by decide)
  have hpop := pop_word hs (m := 2) (show (3 : Word).toInt.toNat = 3 by decide)
  have hcall : call 1 ((caller data).word 2) _ = _ :=
    call_words hv hheight (show (2 + 3 : Int) ≤ (Word.ofNat memorySize).toInt by decide)
  have hexecute : execute givesSeven.size (givesSeven.instr ⟨0, by decide⟩) (caller data) =
      .ok () (callee data) :=
    EStateM.bind_of_ok ((EStateM.bind_of_ok hpop).trans hcall)
  have hstart : (caller data).cp.index? givesSeven.size = some ⟨0, by decide⟩ := rfl
  exact run_of_ok hstart (by decide) hexecute

end Seven

theorem givesSeven_loads {u : State} (hu : u.Apart) (hst : u.st = Word.ofNat 5) (hcp : u.cp = 1)
    (hht : 5 < u.ht.toInt) (steps : Nat) :
    run givesSeven 1 steps u =
      ⟨{ u with data := u.data.setIfInBounds 5 7, st := Word.ofNat 6, cp := 2 }, steps + 1,
      .outOfFuel⟩ := by
  have hnext : u.cp.index? givesSeven.size = some ⟨1, by decide⟩ := by
    rw [hcp]
    rfl
  have hload : execute givesSeven.size (givesSeven.instr ⟨1, by decide⟩) u = .ok () _ :=
    execute_loadl (by decide) hu hst hht
  rw [hcp] at hload
  rw [run_of_ok hnext (by decide) hload]
  rfl

/-- The result takes the place of the argument, and the frame is gone. -/
theorem givesSeven_returns :
    let s := caller (.replicate memorySize 0)
    s.Bounded ∧ Calls (givesSeven.instr ⟨0, by decide⟩) s 2 ∧
      Returns givesSeven (run givesSeven 2 0 s).state 2 1 1 ∧
      (run givesSeven 3 0 s).ending = .outOfFuel ∧
      Resumes s (run givesSeven 2 0 s).state (run givesSeven 3 0 s).state 2 1 1 := by
  have hsize : (Array.replicate memorySize (0 : Word)).size = memorySize := Array.size_replicate
  generalize Array.replicate memorySize (0 : Word) = data at hsize ⊢
  have hs := caller_apart hsize
  have hu := callee_apart hsize
  have hbounded : (caller data).Bounded := ⟨hs.size, hs.base, hs.below, hs.top⟩
  have hcall : Calls (givesSeven.instr ⟨0, by decide⟩) (caller data) 2 :=
    .onObject (by decide) (show (3 : Word).toInt.toNat = 3 by decide)
  have hst : (callee data).st = Word.ofNat 5 := rfl
  have hlb : (callee data).lb.toInt = 2 := rfl
  have hht : (callee data).ht.toInt = memorySize :=
    (by decide : (Word.ofNat memorySize).toInt = memorySize)
  have hcp : (callee data).cp = 1 := rfl
  have hone := caller_calls hsize
  -- What the method does to its own frame does not depend on the rest of the memory.
  generalize callee data = u at hu hst hlb hht hcp hone
  have htwo : run givesSeven 2 0 (caller data) =
      ⟨{ u with data := u.data.setIfInBounds 5 7, st := Word.ofNat 6, cp := 2 }, 2,
        .outOfFuel⟩ := by
    rw [run_succ (by rw [hone]), hone]
    exact givesSeven_loads hu hst hcp (by rw [hht]; decide) 1
  have hreturns : Returns givesSeven (run givesSeven 2 0 (caller data)).state 2 1 1 := by
    rw [htwo]
    exact ⟨⟨⟨2, by decide⟩, rfl, by decide, by decide, by decide⟩, hlb, by decide,
      (by decide : (2 + 3 + 1 : Int) ≤ (Word.ofNat 6).toInt),
      hht ▸ (by decide : (Word.ofNat 6).toInt ≤ memorySize),
      Int.le_of_eq hht⟩
  have hkept (m : Nat) (hm : m < 2 + 3) :
      (run givesSeven 2 0 (caller data)).state.word m =
        (run givesSeven 1 0 (caller data)).state.word m := by
    rw [htwo, hone]
    exact (getD_setIfInBounds (by rw [hu.size]; decide)).trans (if_neg (by omega))
  have hresumes := return_undoes_call (k := 1) hbounded rfl hcall (by rw [htwo]) hkept hreturns
  exact ⟨hbounded, hcall, hreturns, hresumes.1, hresumes.2⟩

end MiniJava.Machine
