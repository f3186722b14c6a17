import MiniJava.Proofs.Generate.Linked
/-!
What can be seen of a run of the machine, and that it is what can be seen of the evaluation. The run
of a program is cut into the paths that follow the evaluation with more and more fuel.
-/
namespace MiniJava.Machine

open Semantics

variable {code : Code} {s : State} {m n : Nat}

/-- What has been printed after at most `n` instructions. -/
def written (code : Code) (s : State) (n : Nat) : Bytes :=
  (run code n 0 s).state.output.written.toList

/-- The behaviour of code from a state. -/
def Behaves (code : Code) (s : State) : Behaviour → Prop
  | .ends output => ∃ n, (run code n 0 s).ending = .halted ∧ written code s n = output
  | .fails f output =>
      ∃ n, (run code n 0 s).ending = .stopped (.fault f.machine) ∧ written code s n = output
  | .diverges printed => (∀ n, (run code n 0 s).ending = .outOfFuel) ∧
      ∀ text, printed text ↔ ∃ n, text <+: written code s n

/-- A run that never lacks memory and never calls a method on the null reference. -/
structure Regular (code : Code) (s : State) : Prop where
  memory : ∀ n f, (run code n 0 s).ending = .stopped (.fault f) → f ≠ .stackOverflow ∧
    f ≠ .heapExhausted
  receivers : ∀ n, (run code n 0 s).ending = .outOfFuel → ¬ CallsNull code (run code n 0 s).state

theorem run_eq_of_le {steps : Nat} (hmn : m ≤ n) (h : (run code m steps s).ending ≠ .outOfFuel) :
    run code n steps s = run code m steps s := by
  induction m generalizing n steps s with
  | zero => exact absurd rfl h
  | succ m ih =>
    obtain ⟨n, rfl⟩ := Nat.exists_eq_add_one_of_ne_zero (by omega : n ≠ 0)
    cases ha : s.cp.index? code.size with
    | none => simp only [run, ha]
    | some a =>
      by_cases hop : (code.instr a).op = Op.halt.number
      · simp only [run, ha, hop, if_true]
      · cases he : execute code.size (code.instr a) s with
        | error e s' => simp only [run, ha, hop, if_false, he]
        | ok u s' =>
          simp only [run, ha, hop, if_false, he] at h ⊢
          exact ih (by omega) h

theorem run_unique {e e' : Ending} (hm : (run code m 0 s).ending = e)
    (hn : (run code n 0 s).ending = e') (he : e ≠ .outOfFuel)
    (he' : e' ≠ .outOfFuel) : run code m 0 s = run code n 0 s := by
  rcases Nat.le_total m n with h | h
  · exact (run_eq_of_le h (hm.symm ▸ he)).symm
  · exact run_eq_of_le h (hn.symm ▸ he')

end MiniJava.Machine

namespace MiniJava.Semantics

theorem Fault.machine_inj {f g : Fault} (h : f.machine = g.machine) : f = g := by
  cases f <;> cases g <;> simp_all [Fault.machine]

end MiniJava.Semantics

namespace MiniJava.Machine

open Semantics

variable {code : Code} {s : State}

theorem Behaves.unique {b b' : Behaviour} (h : Behaves code s b)
    (h' : Behaves code s b') : b = b' := by
  cases b with
  | ends o =>
    obtain ⟨n, hn, rfl⟩ := h
    cases b' with
    | ends o' =>
      obtain ⟨n', hn', rfl⟩ := h'
      rw [written, run_unique hn hn' nofun nofun, written]
    | fails f' o' =>
      obtain ⟨n', hn', -⟩ := h'
      rw [run_unique hn hn' nofun nofun, hn'] at hn
      cases hn
    | diverges printed => cases hn.symm.trans (h'.1 n)
  | fails f o =>
    obtain ⟨n, hn, rfl⟩ := h
    cases b' with
    | ends o' =>
      obtain ⟨n', hn', -⟩ := h'
      rw [run_unique hn hn' nofun nofun, hn'] at hn
      cases hn
    | fails f' o' =>
      obtain ⟨n', hn', rfl⟩ := h'
      have hrun := run_unique hn hn' nofun nofun
      rw [hrun, hn'] at hn
      rw [written, hrun, ← Fault.machine_inj (Stop.fault.inj (Ending.stopped.inj hn)), written]
    | diverges printed => cases hn.symm.trans (h'.1 n)
  | diverges printed =>
    cases b' with
    | ends o' =>
      obtain ⟨n', hn', -⟩ := h'
      cases hn'.symm.trans (h.1 n')
    | fails f' o' =>
      obtain ⟨n', hn', -⟩ := h'
      cases hn'.symm.trans (h.1 n')
    | diverges printed' =>
      have hsame : printed = printed' :=
        funext fun text => propext ((h.2 text).trans (h'.2 text).symm)
      rw [hsame]

end MiniJava.Machine

namespace MiniJava.Simulation

open Generate Machine Semantics

variable {p : Program} {H : Host p} {c c' : Config} {k n : Nat}

theorem Host.Path.split (h : H.Path k c c') (hn : n ≤ k) :
    ∃ c₁, H.Path n c c₁ ∧ H.Path (k - n) c₁ c' := by
  induction h generalizing n with
  | refl c =>
    cases Nat.le_zero.mp hn
    exact ⟨c, .refl c, .refl c⟩
  | @step k c₁ c₂ c₃ hgood hstep hpath ih =>
    cases n with
    | zero => exact ⟨c₁, .refl c₁, .step hgood hstep hpath⟩
    | succ n =>
      obtain ⟨c₄, h₁, h₂⟩ := ih (Nat.le_of_succ_le_succ hn)
      rw [Nat.add_sub_add_right]
      exact ⟨c₄, .step hgood hstep h₁, h₂⟩

theorem Host.Path.run (h : H.Path k c c') (fuel steps : Nat) :
    Machine.run H.code (k + fuel) steps c.1 = Machine.run H.code fuel (steps + k) c'.1 := by
  induction h generalizing steps with
  | refl c => rw [Nat.zero_add, Nat.add_zero]
  | @step k c₁ c₂ c₃ hgood hstep hpath ih =>
    cases hstep with
    | mk ha hop he =>
      rw [Nat.add_right_comm, Machine.run]
      simp only [ha, hop, if_false, he]
      rw [ih, Nat.add_right_comm, Nat.add_assoc]

theorem Host.Path.outOfFuel (h : H.Path k c c') :
    Machine.run H.code k 0 c.1 = ⟨c'.1, k, .outOfFuel⟩ := by
  have hrun := h.run 0 0
  rw [Nat.add_zero, Nat.zero_add] at hrun
  exact hrun

theorem Host.Path.prints (hcode : ∀ a, Emitted (fun _ => True) (H.code.instr a))
    (h : H.Path k c c') : c.1.output.written.toList <+: c'.1.output.written.toList := by
  induction h with
  | refl c => exact List.prefix_refl _
  | step _ hstep _ ih =>
    cases hstep with
    | mk _ _ he => exact ((hcode _).step he).1.trans ih

theorem Host.Path.fails {f : Machine.Fault} {out : Output} (h : H.Path k c c')
    (hf : Fails H.code c'.1 f out) :
    (Machine.run H.code (k + 1) 0 c.1).ending = .stopped (.fault f) ∧
      (Machine.run H.code (k + 1) 0 c.1).state.output = out := by
  obtain ⟨a, s', ha, hop, he, rfl⟩ := hf
  rw [h.run, Machine.run]
  simp only [ha, hop, if_false, he, and_self]

/-- The next instruction is the last one. -/
def Host.Halts (H : Host p) (s : State) : Prop :=
  ∃ a, s.cp.index? H.code.size = some a ∧ (H.code.instr a).op = Op.halt.number

theorem Host.Path.halts (h : H.Path k c c') (hc : H.Halts c'.1) :
    (Machine.run H.code (k + 1) 0 c.1).ending = .halted ∧
      (Machine.run H.code (k + 1) 0 c.1).state = c'.1 := by
  obtain ⟨a, ha, hop⟩ := hc
  rw [h.run, Machine.run]
  simp only [ha, hop, if_true, and_self]

theorem shows_initial {sink : Sink} (h : H.output = { sink }) :
    (H.outerView (reserved 0) 0 []).Shows (State.initial H.input sink) := by
  refine ⟨⟨List.replicate memorySize 0, ?_, ?_⟩, rfl, rfl, rfl, rfl, rfl, rfl, ?_⟩
  · simp only [Host.outerView, reserved, heapImage, List.replicate_zero, List.append_nil]
    exact Array.toList_replicate
  · simp [Host.outerView, reserved, heapImage]
  · change ({ sink } : Output) = H.output.append []
    rw [h]
    cases sink <;> rfl

variable {source : Bytes} {entry : MethodKey} {code : Code}

theorem halts_of_view {σ : Store} {s : State} (hopens : Opens H k entry)
    (h : (H.outerView σ (k + 3) []).Shows s) : H.Halts s := by
  obtain ⟨instr, hlink, hget⟩ := H.linked _ _ hopens.halt
  cases hlink
  obtain ⟨hlt, hget⟩ := Array.getElem?_eq_some_iff.mp hget
  refine ⟨⟨k + 3, hlt⟩, ?_, congrArg Instr.op hget⟩
  rw [h.cp]
  exact Word.index?_ofNat hlt (Nat.lt_trans hlt H.small)

theorem not_escapes (hregular : Regular H.code c.1) (h : H.Path k c c') : ¬ H.Escapes c' := by
  rintro ⟨-, hnull | ⟨f, out, hf, hfails⟩⟩
  · have hrun := h.outOfFuel
    have hnot := hregular.receivers k (by rw [hrun])
    rw [hrun] at hnot
    exact hnot hnull
  · obtain ⟨hover, hfull⟩ := hregular.memory (k + 1) f (h.fails hfails).1
    exact hf.elim hover hfull

/-- The machine does what the evaluation tells, for each amount of fuel. -/
theorem meets_evaluate (h : p.IsBuilt source entry H.code) (hopens : Opens H p.staticCount entry)
    (houtput : H.output = { sink := .accept })
    (hregular : Regular H.code (State.initial H.input .accept)) (n : Nat) :
    H.Meets n (State.initial H.input .accept, (reserved 0).world.log)
      (fun _ σ v => σ.Typed p.heads ∧ v = H.outerView σ (p.staticCount + 3) [])
      (p.evaluate entry n) := by
  rcases sim_program h hopens n _ (shows_initial houtput) with ⟨k, c, hpath, hescapes⟩ | hmeets
  · exact absurd hescapes (not_escapes hregular hpath)
  · exact hmeets

theorem behaves_of_evaluates (h : p.IsBuilt source entry H.code)
    (hopens : Opens H p.staticCount entry) (houtput : H.output = { sink := .accept })
    (hregular : Regular H.code (State.initial H.input .accept)) {b : Behaviour}
    (hb : p.Evaluates entry b) : Behaves H.code (State.initial H.input .accept) b := by
  have hmeets := meets_evaluate h hopens houtput hregular
  cases b with
  | ends out =>
    obtain ⟨n, σ, hn, rfl⟩ := hb
    have hn' := hmeets n
    rw [hn] at hn'
    obtain ⟨k, s, v, hpath, hs, -, rfl⟩ := hn'
    obtain ⟨hending, hstate⟩ := hpath.halts (halts_of_view hopens hs)
    refine ⟨k + 1, hending, ?_⟩
    rw [written, hstate, hs.output]
    simp [Host.outerView, houtput, Output.append]
  | fails f out =>
    obtain ⟨n, σ, hn, rfl⟩ := hb
    have hn' := hmeets n
    rw [hn] at hn'
    obtain ⟨k, c, hpath, -, hfails⟩ := hn'
    obtain ⟨hending, hout⟩ := hpath.fails hfails
    refine ⟨k + 1, hending, ?_⟩
    rw [written, hout]
    simp [houtput, Output.append]
  | diverges printed =>
    obtain ⟨hfuel, hprinted⟩ := hb
    -- The machine has made `n` steps when the evaluation with `n` fuel has printed what it prints.
    have hfollows (n : Nat) {σ : Store} (hn : p.evaluate entry n = .error .outOfFuel σ) :
        (Machine.run H.code n 0 (State.initial H.input .accept)).ending = .outOfFuel ∧
          written H.code (State.initial H.input .accept) n <+: σ.output ∧
          ∃ k, written H.code (State.initial H.input .accept) k = σ.output := by
      have hn' := hmeets n
      rw [hn] at hn'
      obtain ⟨k, c, hk, hpath, hout⟩ := hn'
      obtain ⟨c₁, hpath₁, hpath₂⟩ := hpath.split hk
      have hlast : c.1.output.written.toList = σ.output := by
        rw [hout]
        simp [houtput, Output.append]
      refine ⟨by rw [hpath₁.outOfFuel], ?_, k, ?_⟩
      · rw [written, hpath₁.outOfFuel, ← hlast]
        exact hpath₂.prints h.emitted
      · rw [written, hpath.outOfFuel, hlast]
    refine ⟨fun n => ?_, fun text => (hprinted text).trans ⟨?_, ?_⟩⟩
    · obtain ⟨σ, hn⟩ := hfuel n
      exact (hfollows n hn).1
    · rintro ⟨n, σ, hn, htext⟩
      obtain ⟨-, -, k, hk⟩ := hfollows n hn
      exact ⟨k, hk ▸ htext⟩
    · rintro ⟨n, htext⟩
      obtain ⟨σ, hn⟩ := hfuel n
      exact ⟨n, σ, hn, htext.trans (hfollows n hn).2.1⟩

/-- An evaluation is never stuck, so that it has a behaviour. -/
theorem exists_evaluates (h : p.IsBuilt source entry H.code)
    (hopens : Opens H p.staticCount entry) (houtput : H.output = { sink := .accept })
    (hregular : Regular H.code (State.initial H.input .accept)) : ∃ b, p.Evaluates entry b := by
  by_cases hfuel : ∀ n, ∃ σ, p.evaluate entry n = .error .outOfFuel σ
  · exact ⟨.diverges _, hfuel, fun _ => .rfl⟩
  · obtain ⟨n, hn⟩ := not_forall.mp hfuel
    have hmeets := meets_evaluate h hopens houtput hregular n
    cases hx : p.evaluate entry n with
    | ok u σ => exact ⟨.ends σ.output, n, σ, hx, rfl⟩
    | error e σ =>
      cases e with
      | fault f => exact ⟨.fails f σ.output, n, σ, hx, rfl⟩
      | outOfFuel => exact absurd ⟨σ, hx⟩ hn
      | stuck =>
        rw [hx] at hmeets
        exact hmeets.elim

end MiniJava.Simulation

namespace MiniJava

open Machine Simulation

/-- The first steps of a run lead to the machine that is shown. -/
def Reaches (code : Code) (steps : Nat) (v : View) : Prop :=
  ∃ s, v.Shows s ∧ ∀ fuel, run code (fuel + steps) 0 (State.initial none .accept) =
    run code fuel steps s

theorem reaches_initial (code : Code) :
    Reaches code 0 ⟨[], [], 0, 0, 0, none, { sink := .accept }⟩ := by
  refine ⟨State.initial none .accept, ⟨⟨List.replicate memorySize 0, ?_, ?_⟩, rfl, rfl, rfl, rfl,
    rfl, rfl, rfl⟩,
    fun fuel => by rw [Nat.add_zero]⟩
  · rw [List.nil_append, List.append_nil]
    exact Array.toList_replicate
  · rw [List.length_replicate, List.length_nil, Nat.zero_add, Nat.add_zero]

theorem Reaches.step {code : Code} {steps : Nat} {v v' : View} {i : Instr}
    (h : Reaches code steps v) (a : Nat) (hi : code[a]? = some i) (hcp : v.cp = Word.ofNat a)
    (hsmall : a < 2 ^ 63) (hhalt : i.op ≠ Op.halt.number)
    (hdoes : Does (execute code.size i) v (fun _ w => w = v') fun _ _ => False) :
    Reaches code (steps + 1) v' := by
  obtain ⟨hlt, rfl⟩ := Array.getElem?_eq_some_iff.mp hi
  obtain ⟨s, hs, hrun⟩ := h
  rcases hdoes s hs with ⟨u, s', w, he, hs', rfl⟩ | ⟨f, s', he, hF⟩
  · refine ⟨s', hs', fun fuel => ?_⟩
    have hindex : s.cp.index? code.size = some ⟨a, hlt⟩ := by
      rw [hs.cp, hcp, Word.index?_ofNat hlt hsmall]
    rw [show fuel + (steps + 1) = (fuel + 1) + steps by omega, hrun, run]
    simp only [hindex, Code.instr, Fin.getElem_fin, hhalt, if_false, he]
  · exact hF.elim

theorem Reaches.outOfFuel {code : Code} {steps : Nat} {v : View} (h : Reaches code steps v) :
    ∃ s, v.Shows s ∧ run code steps 0 (State.initial none .accept) = ⟨s, steps, .outOfFuel⟩ := by
  obtain ⟨s, hs, hrun⟩ := h
  refine ⟨s, hs, ?_⟩
  have := hrun 0
  rwa [Nat.zero_add] at this

/-- The preamble of a program makes room for the static fields and calls the entry method with an
empty array. -/
theorem reaches_main {code : Code} {k a : Nat} (hpos : 0 < k) (hk : k < 1000)
    (hpush : ∀ j < k, code[j]? = some (.of .push 0 .zr 1))
    (hliteral : code[k]? = some (.of .loadl 0 .zr 0)) (hnew : code[k + 1]? = some (.prim .newarr))
    (hcall : code[k + 2]? = some (.of .call 0 .cb (Word.ofNat a))) :
    Reaches code (k + 3) ⟨List.replicate k 0 ++ [65536, 0, 0, Word.ofNat (k + 3)], [arrayClass, 0],
      Word.ofNat (k + 1), 0, Word.ofNat a, none, { sink := .accept }⟩ := by
  have hmem : memorySize = 65536 := rfl
  have hreserved (j : Nat) (hj : j ≤ k) :
      Reaches code j ⟨List.replicate j 0, [], 0, 0, Word.ofNat j, none, { sink := .accept }⟩ := by
    induction j with
    | zero => exact reaches_initial code
    | succ j ih =>
      refine (ih (by omega)).step j (hpush j (by omega)) rfl (by omega) (Instr.of_op_ne (by decide))
        ?_
      refine does_reserve (fun hfull => ?_) ?_
      · simp only [List.length_replicate, List.length_nil] at hfull
        omega
      · simp [List.replicate_succ', Word.ofNat_add_one]
  have hsize : Reaches code (k + 1)
      ⟨List.replicate k 0 ++ [0], [], 0, 0, Word.ofNat (k + 1), none, { sink := .accept }⟩ := by
    refine (hreserved k (Nat.le_refl k)).step k hliteral rfl (by omega) (Instr.of_op_ne (by decide))
      ?_
    refine does_literal (fun hfull => ?_) (by rw [Word.ofNat_add_one])
    simp only [List.length_replicate, List.length_nil] at hfull
    omega
  have hargument : Reaches code (k + 2)
      ⟨List.replicate k 0 ++ [65536], [arrayClass, 0], 0, 0, Word.ofNat (k + 2), none,
        { sink := .accept }⟩ := by
    refine hsize.step (k + 1) hnew rfl (by omega) (Instr.of_op_ne (by decide)) ?_
    refine does_prim
      (.bind (does_pop rfl (does_create ?_ (fun h => absurd h (by decide)) (fun hfull => ?_)
      fun n _ hint => ?_)))
    · simpa using Nat.ne_of_gt hpos
    · have hzero : (0 : Word).toInt.toNat = 0 := by decide
      simp only [List.length_replicate, List.length_nil, hzero] at hfull
      omega
    · obtain rfl : n = 0 := Int.ofNat.inj (hint.symm.trans rfl)
      rw [Word.ofNat_add_one]
      rfl
  refine hargument.step (k + 2) hcall rfl (by omega) (Instr.of_op_ne (by decide)) ?_
  refine does_callCode (fun hfull => ?_) ?_
  · simp only [List.length_append, List.length_replicate, List.length_cons, List.length_nil]
      at hfull
    omega
  · simp [Word.ofNat_add_one]

/-- The program `class A { public static void main(String[] a) { System.out.println(7); } }`. -/
def printsSeven : Bytes :=
  ("class A \x7b public static void main(String[] a) \x7b " ++
    "System.out.println(7); \x7d \x7d").toUTF8.toList

def printsSevenCode : Code :=
  #[.of .push 0 .zr 1, .of .loadl 0 .zr 0, .prim .newarr, .of .call 0 .cb 5, .of .halt 0 .zr 0,
    .of .loadl 0 .zr 7, .prim .putintnl, .of .ret 0 .zr 1]

def printsSevenView (stack heap : List Word) (lb cp : Word) (written : Bytes) : View :=
  ⟨stack, heap, lb, 0, cp, none, Output.append { sink := .accept } written⟩

theorem printsSeven_reaches :
    Reaches printsSevenCode 7 (printsSevenView [0] [arrayClass, 0] 0 4 (decimal 7 ++ newline)) := by
  have h₀ : Reaches printsSevenCode 0 (printsSevenView [] [] 0 0 []) :=
    reaches_initial printsSevenCode
  have h₁ : Reaches printsSevenCode 1 (printsSevenView [0] [] 0 1 []) :=
    h₀.step 0 rfl rfl (by decide) (by decide) (does_reserve (fun h => absurd h (by decide)) rfl)
  have h₂ : Reaches printsSevenCode 2 (printsSevenView [0, 0] [] 0 2 []) :=
    h₁.step 1 rfl rfl (by decide) (by decide) (does_literal (fun h => absurd h (by decide)) rfl)
  have h₃ : Reaches printsSevenCode 3 (printsSevenView [0, 65536] [arrayClass, 0] 0 3 []) := by
    refine h₂.step 2 rfl rfl (by decide) (by decide)
      (does_prim (.bind (does_pop (show _ = [0] ++ [0] from rfl) ?_)))
    refine does_create (List.cons_ne_nil _ _) (fun h => absurd h (by decide))
      (fun h => absurd h (by decide))
      fun n hn hint => ?_
    obtain rfl : n = 0 := Int.ofNat.inj (hint.symm.trans rfl)
    rfl
  have h₄ :
      Reaches printsSevenCode 4 (printsSevenView [0, 65536, 0, 0, 4] [arrayClass, 0] 2 5 []) :=
    h₃.step 3 rfl rfl (by decide) (by decide) (does_callCode (fun h => absurd h (by decide)) rfl)
  have h₅ :
      Reaches printsSevenCode 5 (printsSevenView [0, 65536, 0, 0, 4, 7] [arrayClass, 0] 2 6 []) :=
    h₄.step 5 rfl rfl (by decide) (by decide) (does_literal (fun h => absurd h (by decide)) rfl)
  have h₆ : Reaches printsSevenCode 6
      (printsSevenView [0, 65536, 0, 0, 4] [arrayClass, 0] 2 7 (decimal 7 ++ newline)) :=
    h₅.step 6 rfl rfl (by decide) (by decide)
      (does_prim (does_println (show _ = [0, 65536, 0, 0, 4] ++ [7] from rfl) (fun _ => rfl) rfl))
  have hret : Does (execute printsSevenCode.size (.of .ret (Word.ofNat ([] : List Word).length) .zr
      (Word.ofNat [(65536 : Word)].length))) _ (fun _ w => w = _) fun _ _ => False :=
    does_return
      (show (printsSevenView [0, 65536, 0, 0, 4] [arrayClass, 0] 2 7 (decimal 7 ++ newline)).stack =
        [0] ++ [65536] ++ 0 :: 0 :: 4 :: ([] ++ []) from rfl) rfl (by decide) rfl
  exact h₆.step 7 rfl rfl (by decide) (by decide) hret

theorem printsSeven_run : (run printsSevenCode 8 0 (State.initial none .accept)).ending = .halted ∧
    written printsSevenCode (State.initial none .accept) 8 = "7\n".toUTF8.data.toList := by
  obtain ⟨s, hs, hrun⟩ := printsSeven_reaches
  have hindex : s.cp.index? printsSevenCode.size = some ⟨4, by decide⟩ := by rw [hs.cp]; rfl
  have hseven : decimal 7 ++ newline = "7\n".toUTF8.data.toList := by
    rw [decimal_newline]
    decide
  rw [written, show run printsSevenCode 8 0 (State.initial none .accept) = _ from hrun 1, run]
  simp only [hindex]
  exact ⟨rfl, by rw [if_pos (by rfl), hs.output]; simpa [printsSevenView, Output.append]
    using hseven⟩

theorem printsSeven_regular : Regular printsSevenCode (State.initial none .accept) := by
  refine ⟨fun n f hn => ?_, fun n _ h => ?_⟩
  · rw [run_unique hn printsSeven_run.1 nofun nofun, printsSeven_run.1] at hn
    cases hn
  · obtain ⟨a, -, hop, -⟩ := h
    exact absurd hop
      ((by decide : ∀ a : Fin printsSevenCode.size, printsSevenCode[a].op ≠ Op.calli.number) a)

/-- The code of a program behaves as the program is evaluated, as long as it does not lack memory
and no method is called on the null reference. Addresses and numbers of fields are words. -/
theorem behaves_iff_evaluates {p : Program} {source : Bytes} {entry : MethodKey} {code : Code}
    (h : p.IsBuilt source entry code) (hcode : code.size < 2 ^ 63)
    (hfields : ∀ c ∈ p.heads, c.fields.length < 2 ^ 63)
    (hregular : Regular code (State.initial none .accept)) :
    (∃ b, p.Evaluates entry b) ∧
      ∀ b, Behaves code (State.initial none .accept) b ↔ p.Evaluates entry b := by
  obtain ⟨H, rfl, hinput, houtput, -, hpreamble⟩ := exists_host h hcode hfields none .accept nofun
  have hopens := opens_of_preamble hpreamble
  rw [← hinput] at hregular ⊢
  obtain ⟨b, hb⟩ := exists_evaluates h hopens houtput hregular
  refine ⟨⟨b, hb⟩, fun b' => ⟨fun hb' => ?_, behaves_of_evaluates h hopens houtput hregular⟩⟩
  rw [hb'.unique (behaves_of_evaluates h hopens houtput hregular hb)]
  exact hb

theorem printsSeven_evaluates :
    ∃ (p : Program) (entry : MethodKey), p.IsBuilt printsSeven entry printsSevenCode ∧
      Regular printsSevenCode (State.initial none .accept) ∧
      p.Evaluates entry (.ends "7\n".toUTF8.data.toList) := by
  have hbuild :
      (Program.build? printsSeven).map
      (fun x => (x.1.heads.all (·.fields.length < 2 ^ 63), x.2.2)) =
        some (true, printsSevenCode) := by decide +kernel
  obtain ⟨⟨p, entry, code⟩, hp, hx⟩ := Option.map_eq_some_iff.mp hbuild
  obtain ⟨hfields, rfl⟩ := Prod.mk.inj hx
  simp only [List.all_eq_true, decide_eq_true_eq] at hfields
  have hbuilt := Program.isBuilt_of_build? hp
  have h := behaves_iff_evaluates hbuilt (by decide) hfields printsSeven_regular
  exact ⟨p, entry, hbuilt, printsSeven_regular, (h.2 _).mp ⟨8, printsSeven_run⟩⟩

end MiniJava
