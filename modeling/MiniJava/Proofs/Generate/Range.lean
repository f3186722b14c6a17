import MiniJava.Proofs.Generate.Linked
import MiniJava.Proofs.Simulation.Behaviour
/-!
The range of numbers in a running program. Every word that the machine stores is a number of 32
bits, but for the number 2³¹, which only the negation of the least number makes.
-/
namespace MiniJava

/-- A number from the least `int` up to `high`. -/
def Word.Within (high : Int) (w : Word) : Prop := -2 ^ 31 ≤ w.toInt ∧ w.toInt ≤ high

namespace Word

variable {high : Int} {w : Word}

theorem within_ofNat {n : Nat} (hn : n ≤ high) (hhigh : high ≤ 2 ^ 31) : (ofNat n).Within high := by
  rw [Within, toInt_ofNat (by omega)]
  omega

theorem within_cut32 (hhigh : 2 ^ 31 - 1 ≤ high) : w.cut32.Within high := by
  have hlow := Int32.le_toInt w.toInt32
  have hlt := Int32.toInt_lt w.toInt32
  rw [Within, cut32, Int32.toInt_toInt64]
  omega

theorem within_ofBool (b : Bool) (hhigh : 2 ^ 31 - 1 ≤ high) : (ofBool b).Within high := by
  cases b
  · exact ⟨by decide, Int.le_trans (by decide) hhigh⟩
  · exact ⟨by decide, Int.le_trans (by decide) hhigh⟩

theorem toInt_neg (h : w.Within (2 ^ 31)) : (-w).toInt = -w.toInt := by
  obtain ⟨hlow, hhigh⟩ := h
  rw [Int64.toInt_neg, Int.bmod_eq_of_le (by omega) (by omega)]

end Word

namespace Machine

/-- A state that holds and has printed numbers up to `high` only. -/
structure State.Within (high : Int) (s : State) : Prop where
  size : s.data.size = memorySize
  words : ∀ (i : Nat) w, s.data[i]? = some w → w.Within high
  lb : s.lb.Within high
  ob : s.ob.Within high
  printed : ∃ ws : List Word, (∀ w ∈ ws, w.Within high) ∧
    s.output.written.toList = ws.flatMap fun w => decimal w ++ newline

/-- The next instruction negates the least `int`. -/
def NegatesLeast (code : Code) (s : State) : Prop :=
  ∃ a i, s.cp.index? code.size = some a ∧ code.instr a = .prim .neg ∧ s.st = Word.ofNat (i + 1) ∧
    ∃ w, s.data[i]? = some w ∧ w.toInt = -2 ^ 31

section

variable {high : Int} {code : Code} {s : State}

theorem within_initial (hhigh : 0 ≤ high) (input : Option Input) (sink : Sink) :
    (State.initial input sink).Within high := by
  have hzero : (0 : Word).Within high := ⟨by decide, hhigh⟩
  refine ⟨by simp [State.initial], fun i w hw => ?_, hzero, hzero, [], nofun, rfl⟩
  rw [State.initial, Array.getElem?_replicate] at hw
  split at hw
  · cases hw
    exact hzero
  · cases hw

theorem State.Within.print (hs : s.Within high) {w : Word} (hw : w.Within high) :
    ({ s with output := s.output.append (decimal w ++ newline) } : State).Within high := by
  obtain ⟨ws, hws, hwritten⟩ := hs.printed
  refine ⟨hs.size, hs.words, hs.lb, hs.ob, ?_⟩
  unfold Output.append
  split
  · exact ⟨ws, hws, hwritten⟩
  · refine ⟨ws ++ [w], List.forall_mem_append.mpr ⟨hws, List.forall_mem_singleton.mpr hw⟩, ?_⟩
    simp [hwritten]

theorem stable_within (hlow : 2 ^ 31 - 1 ≤ high) (hhigh : high ≤ 2 ^ 31) {c : Word}
    (hc : (c + 1).Within high) : Stable (Word.Within high) (fun s => s.Within high ∧ s.cp = c) where
  fetched hs hw := hs.1.words _ _ hw
  stored := by
    intro s i w hi hs hw
    refine ⟨⟨by simpa using hs.1.size, fun j u hu => ?_, hs.1.lb, hs.1.ob, hs.1.printed⟩, hs.2⟩
    rw [Array.getElem?_set] at hu
    split at hu
    · cases hu
      exact hw
    · exact hs.1.words j u hu
  stack a hs := ⟨⟨hs.1.size, hs.1.words, hs.1.lb, hs.1.ob, hs.1.printed⟩, hs.2⟩
  heap a hs := ⟨⟨hs.1.size, hs.1.words, hs.1.lb, hs.1.ob, hs.1.printed⟩, hs.2⟩
  bases hs hlb hob := ⟨⟨hs.1.size, hs.1.words, hlb, hob, hs.1.printed⟩, hs.2⟩
  object hs := hs.1.ob
  frame hs := hs.1.lb
  next hs := hs.2 ▸ hc
  printed hs hw := ⟨hs.1.print hw, hs.2⟩
  address hs hi := by
    rw [hs.1.size] at hi
    have : memorySize = 65536 := rfl
    exact Word.within_ofNat (by omega) hhigh
  cut _ := Word.within_cut32 hlow
  truth b := Word.within_ofBool b hlow
  array := ⟨by decide, Int.le_trans (by decide) hlow⟩

/-- Negation stays in range, but for that of the least number. -/
theorem within_neg {w : Word} (hw : w.Within high) (hhigh : high ≤ 2 ^ 31)
    (hleast : high = 2 ^ 31 ∨ w.toInt ≠ -2 ^ 31) (hlow : 2 ^ 31 - 1 ≤ high) : (-w).Within high := by
  obtain ⟨hlo, hhi⟩ := hw
  rw [Word.Within, Word.toInt_neg ⟨hlo, by omega⟩]
  omega

theorem within_step (hlow : 2 ^ 31 - 1 ≤ high) (hhigh : high ≤ 2 ^ 31)
    (hcode : code.size < 2 ^ 31)
    (hemitted : ∀ (a : Nat) i, code[a]? = some i → Emitted (Word.Within high) i)
    (hs : s.Within high) (hfine : high = 2 ^ 31 ∨ ¬ NegatesLeast code s) {a : Fin code.size}
    (ha : s.cp.index? code.size = some a) :
    Ends (State.Within high) (fun _ => True) (execute code.size (code.instr a) s) := by
  have hcp := Word.eq_of_index? ha
  have hnext : (s.cp + 1).Within high := by
    rw [hcp, Word.ofNat_add_one]
    exact Word.within_ofNat (by omega) hhigh
  have hstable := stable_within hlow hhigh hnext
  have hneg (hi : code.instr a = .prim .neg) :
      Ends (fun u => u.Within high ∧ u.cp = s.cp) (fun _ => True) (primitive .neg s) := by
    refine Ends.bind (hstable.pop_at ⟨hs, rfl⟩) fun w hw => hstable.push ?_
    obtain ⟨hw, i, hst, htop⟩ := hw
    refine within_neg hw hhigh (hfine.imp_right fun hnot hleast => ?_) hlow
    exact hnot ⟨a, i, ha, hi, hst, w, htop, hleast⟩
  have hinstr : code[(a : Nat)]? = some (code.instr a) := Array.getElem?_eq_getElem a.isLt
  refine (hstable.execute (hemitted a _ hinstr) (fun _ hu => hu.2) ⟨hs, rfl⟩ hneg).1.of_state
    fun u hu => ?_
  exact ⟨hu.1.size, hu.1.words, hu.1.lb, hu.1.ob, hu.1.printed⟩

theorem negatesLeast_leaves (hsize : s.data.size = memorySize) (h : NegatesLeast code s)
    {s' : State} {a : Fin code.size} (ha : s.cp.index? code.size = some a)
    (he : execute code.size (code.instr a) s = .ok () s') :
    ∃ (i : Nat) (w : Word), s'.data[i]? = some w ∧ w.toInt = 2 ^ 31 := by
  obtain ⟨a', i, ha', hinstr, hst, w, hw, hleast⟩ := h
  cases ha.symm.trans ha'
  rw [hinstr] at he
  obtain ⟨target, u, heffect, hcp⟩ := EStateM.bind_eq_ok.mp he
  cases hcp
  rw [effect_prim] at heffect
  obtain ⟨⟨⟩, u', hneg, hnext⟩ := EStateM.bind_eq_ok.mp heffect
  cases hnext
  obtain ⟨w', t, hpop, hpush⟩ := EStateM.bind_eq_ok.mp hneg
  obtain rfl : w' = w := by
    unfold pop at hpop
    split at hpop
    · cases hpop
    · simp only at hpop
      split at hpop
      · rename_i j hj
        cases hpop
        have hi := (Array.getElem?_eq_some_iff.mp hw).1
        have hsmall : i < 2 ^ 63 := by
          rw [hsize] at hi
          exact Nat.lt_trans hi (by decide)
        rw [hst, ← Word.ofNat_add_one, Int64.add_sub_cancel, Word.index?_ofNat hi hsmall] at hj
        cases hj
        exact Option.some.inj ((Array.getElem?_eq_getElem hi).symm.trans hw)
      · cases hpop
  unfold push at hpush
  split at hpush
  · cases hpush
  · split at hpush
    · rename_i j hj
      cases hpush
      refine ⟨j, -w', by simp, ?_⟩
      rw [Word.toInt_neg ⟨by omega, by omega⟩]
      omega
    · cases hpush

end

end Machine

theorem ClassLayout.Numbers.size_le {l : ClassLayout} {c : ClassDecl}
    (h : l.Numbers c) : l.size ≤ c.fields.length := by
  have hfields := congrArg List.length h.fields
  have hoffsets := congrArg List.length h.offsets
  simp only [List.length_map] at hfields
  simp only [ClassLayout.offsets, List.length_map, List.length_range] at hoffsets
  have := List.length_filter_le (·.2.isStatic == false) l.fields
  omega

theorem ClassLayout.Numbers.offset_lt {l : ClassLayout} {c : ClassDecl} (h : l.Numbers c)
    {name : String} {place : FieldPlace} (hplace : (name, place) ∈ l.fields)
    (hstatic : place.isStatic = false) : place.offset < l.size := by
  rw [← List.mem_range, ← h.offsets]
  refine List.mem_map.mpr ⟨(name, place), List.mem_filter.mpr ⟨hplace, by simp [hstatic]⟩, rfl⟩

open Generate Machine

variable {p : Program} {source : Bytes} {entry : MethodKey} {code : Code} {high : Int}

theorem Program.exists_numbers {l : ClassLayout}
    (hl : l ∈ p.classLayouts) : ∃ c ∈ p.allClasses, l.Numbers c := by
  obtain ⟨j, hj⟩ := List.mem_iff_getElem?.mp hl
  obtain ⟨c, hc, hnumbers⟩ := forall₂_getElem? (ClassLayouts.numbers_of 0 p.allClasses) hj
  exact ⟨c, List.mem_of_getElem? hc, hnumbers⟩

theorem Program.pushes_within (hfields : ∀ c ∈ p.heads, c.fields.length < 2 ^ 31)
    (hlow : 2 ^ 31 - 1 ≤ high) (hhigh : high ≤ 2 ^ 31) :
    Pushes (Word.Within high) p.classLayouts := by
  have hsize {l : ClassLayout} (hl : l ∈ p.classLayouts) : l.size < 2 ^ 31 := by
    obtain ⟨c, hc, hnumbers⟩ := Program.exists_numbers hl
    exact Nat.lt_of_le_of_lt hnumbers.size_le (hfields c.head (List.mem_map_of_mem hc))
  refine ⟨fun b => Word.within_ofBool b hlow, ⟨by decide, Int.le_trans (by decide) hlow⟩,
    fun {name l} hl => ?_,
    fun {owner name place} hplace hstatic => ?_⟩
  · have := hsize (List.mem_of_find?_eq_some hl)
    exact Word.within_ofNat (by omega) hhigh
  · obtain ⟨l, hl, hlookup⟩ := Option.bind_eq_some_iff.mp hplace
    have hl := List.mem_of_find?_eq_some hl
    obtain ⟨c, -, hnumbers⟩ := Program.exists_numbers hl
    have hoffset := hnumbers.offset_lt (Resolve.mem_of_lookup hlookup) hstatic
    have := hsize hl
    exact Word.within_ofNat (by omega) hhigh

theorem Program.IsBuilt.emitted_within (h : p.IsBuilt source entry code)
    (hfields : ∀ c ∈ p.heads, c.fields.length < 2 ^ 31) (hlow : 2 ^ 31 - 1 ≤ high)
    (hhigh : high ≤ 2 ^ 31) {a : Nat} {i : Instr}
    (hi : code[a]? = some i) : Emitted (Word.Within high) i := by
  obtain ⟨d, hd, hlink⟩ := h.exists_draft
  obtain ⟨q, hparse, hresolve⟩ := h.resolved
  refine Program.emitted_code (Program.pushes_within hfields hlow hhigh)
    (fun l hl => ?_) hd hlink hi
  have hfit := Program.literals_of_resolve hparse hresolve l hl
  rw [Parser.maxLiteral] at hfit
  exact Word.within_ofNat (by omega) hhigh

/-- Every word of a running program and every number that it prints is an `int`, as long as the
least `int` is not negated, and lies at most one above the greatest `int` in any case. The negation
of the least `int` makes the number 2³¹. Addresses and numbers of fields are taken to be `int`s as
well. -/
theorem Program.words_within (h : p.IsBuilt source entry code) (hcode : code.size < 2 ^ 31)
    (hfields : ∀ c ∈ p.heads, c.fields.length < 2 ^ 31) (input : Option Input) (sink : Sink)
    (n : Nat) :
    (run code n 0 (.initial input sink)).state.Within (2 ^ 31) ∧
      ((∀ k < n, (run code k 0 (.initial input sink)).ending = .outOfFuel →
          ¬ NegatesLeast code (run code k 0 (.initial input sink)).state) →
        (run code n 0 (.initial input sink)).state.Within (2 ^ 31 - 1)) ∧
      (NegatesLeast code (run code n 0 (.initial input sink)).state →
        (run code (n + 1) 0 (.initial input sink)).ending = .outOfFuel →
        ∃ (i : Nat) (w : Word),
          (run code (n + 1) 0 (.initial input sink)).state.data[i]? = some w ∧ w.toInt = 2 ^ 31) := by
  have hall : (run code n 0 (.initial input sink)).state.Within (2 ^ 31) := by
    refine run_keeps (fun _ => True)
      (fun s a hs _ ha _ => ?_) (within_initial (by decide) input sink)
      fun _ _ _ => trivial
    exact within_step (by decide) (by decide) hcode
      (fun a i hi => h.emitted_within hfields (by decide) (by decide) hi)
      hs (.inl rfl) ha
  refine ⟨hall, fun hfine => ?_, fun hnegates hending => ?_⟩
  · refine run_keeps (¬ NegatesLeast code ·)
      (fun s a hs hnot ha _ => ?_) (within_initial (by decide) input sink) hfine
    exact within_step (by decide) (by decide) hcode
      (fun a i hi => h.emitted_within hfields (by decide) (by decide) hi)
      hs (.inr hnot) ha
  · obtain ⟨a, ha, he⟩ := run_last hending
    exact negatesLeast_leaves hall.size hnegates ha he

/-- The program `class A { public static void main(String[] a) { System.out.println(-(-2147483647 -
1)); } }`. -/
def negatesLeastInt : Bytes :=
  ("class A \x7b public static void main(String[] a) \x7b " ++
    "System.out.println(-(-2147483647 - 1)); \x7d \x7d").toUTF8.toList

def negatesLeastIntCode : Code :=
  #[.of .push 0 .zr 1, .of .loadl 0 .zr 0, .prim .newarr, .of .call 0 .cb 5, .of .halt 0 .zr 0,
    .of .loadl 0 .zr 2147483647, .prim .neg, .of .loadl 0 .zr 1, .prim .sub, .prim .neg,
    .prim .putintnl,
    .of .ret 0 .zr 1]

/-- The state of that program in its method, after some output. -/
def negatesLeastIntView (operands : List Word) (cp : Word) (written : Bytes) : View :=
  ⟨[0, 65536, 0, 0, 4] ++ operands, [arrayClass, 0], 2, 0, cp, none,
    Output.append { sink := .accept } written⟩

theorem negatesLeastInt_reaches :
    Reaches negatesLeastIntCode 8 (negatesLeastIntView [-2147483648] 9 []) ∧
      Reaches negatesLeastIntCode 9 (negatesLeastIntView [2147483648] 10 []) ∧
      Reaches negatesLeastIntCode 11
        ⟨[0], [arrayClass, 0], 0, 0, 4, none,
        Output.append { sink := .accept } (decimal 2147483648 ++ newline)⟩ := by
  have h₄ : Reaches negatesLeastIntCode 4 (negatesLeastIntView [] 5 []) :=
    reaches_main (k := 1) (a := 5) (by decide) (by decide) (by decide) rfl rfl rfl
  have h₅ : Reaches negatesLeastIntCode 5 (negatesLeastIntView [2147483647] 6 []) :=
    h₄.step 5 rfl rfl (by decide) (by decide) (does_literal (fun h => absurd h (by decide)) rfl)
  have h₆ : Reaches negatesLeastIntCode 6 (negatesLeastIntView [-2147483647] 7 []) :=
    h₅.step 6 rfl rfl (by decide) (by decide)
      (does_prim (does_mapTop (show _ = [0, 65536, 0, 0, 4] ++ [2147483647] from rfl) rfl))
  have h₇ : Reaches negatesLeastIntCode 7 (negatesLeastIntView [-2147483647, 1] 8 []) :=
    h₆.step 7 rfl rfl (by decide) (by decide) (does_literal (fun h => absurd h (by decide)) rfl)
  have h₈ : Reaches negatesLeastIntCode 8 (negatesLeastIntView [-2147483648] 9 []) := by
    refine h₇.step 8 rfl rfl (by decide) (by decide) (does_prim (does_binaryTop (p := .sub)
      (show _ = [0, 65536, 0, 0, 4] ++ [-2147483647, 1] from rfl) (fun c hc => ?_) fun f hf =>
      by cases hf))
    cases hc
    rfl
  have h₉ : Reaches negatesLeastIntCode 9 (negatesLeastIntView [2147483648] 10 []) :=
    h₈.step 9 rfl rfl (by decide) (by decide)
      (does_prim (does_mapTop (show _ = [0, 65536, 0, 0, 4] ++ [-2147483648] from rfl) rfl))
  have h₁₀ :
      Reaches negatesLeastIntCode 10 (negatesLeastIntView [] 11 (decimal 2147483648 ++ newline)) :=
    h₉.step 10 rfl rfl (by decide) (by decide)
      (does_prim (does_println (show _ = [0, 65536, 0, 0, 4] ++ [2147483648] from rfl)
        (fun _ => rfl) rfl))
  have hret :
      Does (execute negatesLeastIntCode.size (.of .ret (Word.ofNat ([] : List Word).length) .zr
      (Word.ofNat [(65536 : Word)].length))) _ (fun _ w => w = _) fun _ _ => False :=
    does_return (show (negatesLeastIntView [] 11 (decimal 2147483648 ++ newline)).stack =
      [0] ++ [65536] ++ 0 :: 0 :: 4 :: ([] ++ []) from rfl) rfl (by decide) rfl
  exact ⟨h₈, h₉, h₁₀.step 11 rfl rfl (by decide) (by decide) hret⟩

theorem negatesLeastInt_built :
    ∃ (p : Program) (entry : MethodKey), p.IsBuilt negatesLeastInt entry negatesLeastIntCode ∧
      ∀ c ∈ p.heads, c.fields.length < 2 ^ 31 := by
  have hbuild :
      (Program.build? negatesLeastInt).map
      (fun x => (x.1.heads.all (·.fields.length < 2 ^ 31), x.2.2)) =
        some (true, negatesLeastIntCode) := by decide +kernel
  obtain ⟨⟨p, entry, code⟩, hp, hx⟩ := Option.map_eq_some_iff.mp hbuild
  obtain ⟨hfields, rfl⟩ := Prod.mk.inj hx
  simp only [List.all_eq_true, decide_eq_true_eq] at hfields
  exact ⟨p, entry, Program.isBuilt_of_build? hp, hfields⟩

theorem negatesLeastInt_leaves :
    ∃ (p : Program) (entry : MethodKey), p.IsBuilt negatesLeastInt entry negatesLeastIntCode ∧
      ∃ (i : Nat) (w : Word),
        (run negatesLeastIntCode 9 0 (.initial none .accept)).state.data[i]? = some w ∧ w.toInt = 2 ^ 31 := by
  obtain ⟨p, entry, hbuilt, hfields⟩ := negatesLeastInt_built
  obtain ⟨s, hs, hrun⟩ := negatesLeastInt_reaches.1.outOfFuel
  obtain ⟨s', hs', hrun'⟩ := negatesLeastInt_reaches.2.1.outOfFuel
  have hnegates : NegatesLeast negatesLeastIntCode s := by
    refine ⟨⟨9, by decide⟩, 5, by rw [hs.cp]; rfl, rfl, hs.st, -2147483648, ?_, by decide⟩
    rw [Array.getElem?_eq_getElem (by rw [hs.size]; decide), hs.stack_getElem _ rfl]
  have hsize : negatesLeastIntCode.size < 2 ^ 31 := by decide
  obtain ⟨-, -, hleaves⟩ := Program.words_within hbuilt hsize hfields none .accept 8
  rw [show 8 + 1 = 9 from rfl, hrun, hrun'] at hleaves
  rw [hrun']
  exact ⟨p, entry, hbuilt, hleaves hnegates rfl⟩

/-- The number that is printed is no `int`. -/
theorem negatesLeastInt_prints :
    ∃ (p : Program) (entry : MethodKey), p.IsBuilt negatesLeastInt entry negatesLeastIntCode ∧
      (run negatesLeastIntCode 12 0 (.initial none .accept)).ending = .halted ∧
      (run negatesLeastIntCode 12 0 (.initial none .accept)).state.output.written.toList =
        decimal 2147483648 ++ newline ∧ ¬ (2147483648 : Word).Within (2 ^ 31 - 1) := by
  obtain ⟨p, entry, hbuilt, -⟩ := negatesLeastInt_built
  obtain ⟨s, hs, hrun⟩ := negatesLeastInt_reaches.2.2
  have hindex : s.cp.index? negatesLeastIntCode.size = some ⟨4, by decide⟩ := by rw [hs.cp]; rfl
  refine ⟨p, entry, hbuilt, ?_⟩
  rw [show run negatesLeastIntCode 12 0 (.initial none .accept) = _ from hrun 1, run]
  simp only [hindex]
  refine ⟨rfl, by rw [if_pos (by rfl), hs.output]; simp [Output.append], ?_⟩
  exact fun h => absurd h.2 (by decide)

end MiniJava
