import MiniJava.Proofs.Simulation.Instructions
/-!
What the primitives do to the picture of an activation: operators, printing, and the access to
objects and arrays.
-/
namespace MiniJava

/-! ### Printed numbers -/

theorem Decimal.digit_eq_digitChar {n : Nat} (h : n < 10) : digit n = n.digitChar := by
  have hall : ∀ i : Fin 10, digit i = Nat.digitChar i := by decide
  exact hall ⟨n, h⟩

theorem Decimal.digits_eq_toDigits (n : Nat) : digits n = Nat.toDigits 10 n := by
  induction n using digits.induct with
  | case1 n h => rw [digits, if_pos h, Nat.toDigits_of_lt_base h, digit_eq_digitChar h]
  | case2 n h ih =>
    rw [digits, if_neg h, Nat.toDigits_of_base_le (by decide) (Nat.le_of_not_lt h), ih,
      digit_eq_digitChar (Nat.mod_lt n (by decide))]

theorem Decimal.ofList_ofInt (n : Int) : String.ofList (ofInt n) = toString n := by
  cases n with
  | ofNat n => rw [ofInt, digits_eq_toDigits]; rfl
  | negSucc n =>
    rw [ofInt, digits_eq_toDigits]
    simp [Int.repr, Nat.repr]

theorem Bytes.ofString_eq_toUTF8 (s : String) : ofString s = s.toUTF8.data.toList := by
  rw [String.toUTF8, ← String.utf8Encode_toList, List.utf8Encode, List.data_toByteArray]
  rfl

theorem Machine.decimal_newline (w : Word) : decimal w ++ newline = Semantics.printedLine w := by
  rw [Semantics.printedLine, ← Bytes.ofString_eq_toUTF8, decimal, Decimal.ofList_ofInt,
    Bytes.ofString, Bytes.ofString, String.toList_append, List.flatMap_append]
  rfl

namespace Semantics.World

variable {W : World} {t u : Ty} {a b : Val}

theorem Has.word_inj (hroom : W.footprint ≤ Machine.memorySize) (ha : W.Has t a) (hb : W.Has u b)
    (htu : t = u ∨ (t.isReference = true ∧ u = .null) ∨ (t = .null ∧ u.isReference = true)) :
    W.word a = W.word b ↔ a = b := by
  refine ⟨fun h => ?_, fun h => by rw [h]⟩
  have href (ht : t.isReference = true ∨ t = .null) (hu : u.isReference = true ∨ u = .null) :
      a = b :=
    (ha.isReference ht).word_inj (hb.isReference hu) hroom h
  rcases htu with rfl | ⟨ht, hu⟩ | ⟨ht, hu⟩
  · cases t with
    | int =>
      obtain ⟨w, rfl⟩ := ha
      obtain ⟨w', rfl⟩ := hb
      exact congrArg Val.word h
    | boolean =>
      obtain ⟨c, rfl⟩ := ha
      obtain ⟨d, rfl⟩ := hb
      exact congrArg Val.word h
    | cls | array => exact href (.inl rfl) (.inl rfl)
    | void | null | error => exact ha.trans hb.symm
  · exact href (.inl ht) (.inr hu)
  · exact href (.inr ht) (.inl hu)

end Semantics.World

namespace Simulation

open Generate Machine Semantics

variable {p : Program} {H : Host p} {A : Activation} {σ : Store} {env : Env} {vars : List Local}

/-- The evaluator's operators agree with the machine's primitives. -/
theorem binary_agrees {op : BinaryOp} {q : Prim} {tl tr t : Ty} {a b : Val} (hop : op.HasTy tl tr t)
    (hq : strategy op = .prim q) (ha : σ.world.Has tl a) (hb : σ.world.Has tr b)
    (hroom : σ.world.footprint ≤ memorySize) :
    (∃ c, Semantics.binary op a b σ = .ok c σ ∧
      Machine.binary q (σ.world.word a) (σ.world.word b) = .ok (σ.world.word c) ∧ σ.world.Has t c) ∨
    (Semantics.binary op a b σ = .error (.fault .divisionByZero) σ ∧
      Machine.binary q (σ.world.word a) (σ.world.word b) = .error .divisionByZero) := by
  have hcompare (hop : op ∈ [.eq, .ne]) (htu : σ.world.word a = σ.world.word b ↔ a = b) :
      ∃ c, Semantics.binary op a b σ = .ok c σ ∧
        Machine.binary q (σ.world.word a) (σ.world.word b) = .ok (σ.world.word c) ∧
          σ.world.Has .boolean c := by
    simp only [List.mem_cons, List.not_mem_nil, or_false] at hop
    rcases hop with rfl | rfl <;> cases hq
    · refine ⟨.ofBool (a = b), rfl, ?_, _, rfl⟩
      simp [Machine.binary, htu]
    · refine ⟨.ofBool (a ≠ b), rfl, ?_, _, rfl⟩
      simp [Machine.binary, htu]
  cases hop with
  | arithmetic hop =>
    obtain ⟨w, rfl⟩ := ha
    obtain ⟨w', rfl⟩ := hb
    simp only [List.mem_cons, List.not_mem_nil, or_false] at hop
    rcases hop with rfl | rfl | rfl | rfl <;> cases hq
    · exact .inl ⟨_, rfl, rfl, _, rfl⟩
    · exact .inl ⟨_, rfl, rfl, _, rfl⟩
    · exact .inl ⟨_, rfl, rfl, _, rfl⟩
    · by_cases hzero : w' = 0
      · subst hzero
        exact .inr ⟨rfl, rfl⟩
      · refine .inl ⟨.word (w / w').cut32, ?_, ?_, _, rfl⟩
        · simp [Semantics.binary, arithmetic, number, hzero]
        · simp [Machine.binary, World.word, hzero]
  | order hop =>
    obtain ⟨w, rfl⟩ := ha
    obtain ⟨w', rfl⟩ := hb
    simp only [List.mem_cons, List.not_mem_nil, or_false] at hop
    rcases hop with rfl | rfl | rfl | rfl <;> cases hq <;> exact .inl ⟨_, rfl, rfl, _, rfl⟩
  | logic hop =>
    simp only [List.mem_cons, List.not_mem_nil, or_false] at hop
    rcases hop with rfl | rfl <;> cases hq
  | equality hop _ => exact .inl (hcompare hop (ha.word_inj hroom hb (.inl rfl)))
  | nullRight hop ht => exact .inl (hcompare hop (ha.word_inj hroom hb (.inr (.inl ⟨ht, rfl⟩))))
  | nullLeft hop ht => exact .inl (hcompare hop (ha.word_inj hroom hb (.inr (.inr ⟨rfl, ht⟩))))

section

variable {α : Type} {n pc : Nat} {x : Eval α} {Q : α → Store → View → Prop} {ops : List Word}
  {q : Prim} {t : Ty}
  {a : Val} {w : Word}

theorem Host.Sim.prim (hA : A.Valid H σ env vars) (hcode : H.Carries A pc (within vars [.prim q]))
    (h : Does (primitive q) (H.view A σ env vars pc ops) (fun _ v' => ∃ (y : Eval α) (σ' : Store),
      x σ = y σ' ∧ σ'.world = σ.world ∧ H.Sim n y σ' { v' with cp := v'.cp + 1 } Q)
      (H.MayFail x σ)) : H.Sim n x σ (H.view A σ env vars pc ops) Q := by
  refine .atItem hA hcode rfl (Instr.of_op_ne (by decide)) (Nat.le_succ n) (does_prim fun s hs =>
    ?_)
  refine (h s hs).imp (fun ⟨u, s', v', he, hs', y, σ', hx, hworld, hsim⟩ => ?_) id
  exact ⟨u, s', v', he, hs', y, σ', hx, by rw [hworld]; exact (List.append_nil _).symm, hsim⟩

theorem pushes_result {x : Eval Val} (hA : A.Valid H σ env vars) (hx : x σ = .ok a σ)
    (ha : σ.world.Has t a) {v : View}
    (hv : v = H.view A σ env vars (pc + 1) (ops ++ [σ.world.word a])) :
    ∃ (y : Eval Val) (σ' : Store), x σ = y σ' ∧ σ'.world = σ.world ∧
      H.Sim n y σ' v (H.Pushes A σ env vars (pc + 1) ops t) :=
  ⟨Pure.pure a, σ, hx, rfl, .pure ⟨⟨List.prefix_refl _, hA, hv⟩, ha⟩⟩

theorem room_of_view
    (hroom : (H.view A σ env vars pc ops).stack.length +
      (H.view A σ env vars pc ops).heap.length ≤ memorySize) : σ.world.footprint ≤ memorySize := by
  have hlen : (H.view A σ env vars pc ops).heap.length = σ.world.footprint := length_heapImage
  omega

theorem Host.Sim.unary {op : UnaryOp} (hA : A.Valid H σ env vars)
    (hcode : H.Carries A pc (within vars [.prim (unaryPrim op)])) (hop : op.HasTy t)
    (ha : σ.world.Has t a) :
    H.Sim n (Semantics.unary op a) σ (H.view A σ env vars pc (ops ++ [σ.world.word a]))
      (H.Pushes A σ env vars (pc + 1) ops t) := by
  have hstack (w : Word) :
      (H.view A σ env vars pc (ops ++ [w])).stack = (A.frame σ env vars ++ ops) ++ [w] := by
    simp [Host.view]
  refine .prim hA hcode ?_
  cases hop with
  | not =>
    obtain ⟨b, rfl⟩ := ha
    refine does_mapTop (hstack _) (pushes_result (t := .boolean) (a := .ofBool !b) hA ?_ ⟨!b,
      rfl⟩ ?_)
    · cases b <;> rfl
    · cases b <;> simp [Host.view, Word.ofNat_add_one] <;> rfl
  | neg =>
    obtain ⟨w, rfl⟩ := ha
    refine does_mapTop (hstack _) (pushes_result (t := .int) (a := .word (-w)) hA rfl ⟨-w, rfl⟩ ?_)
    simp [Host.view, Word.ofNat_add_one, World.word]

theorem Host.Sim.binary {op : BinaryOp} {tl tr : Ty} {b : Val} (hA : A.Valid H σ env vars)
    (hcode : H.Carries A pc (within vars [.prim q])) (hq : strategy op = .prim q)
    (hop : op.HasTy tl tr t) (ha : σ.world.Has tl a) (hb : σ.world.Has tr b) :
    H.Sim n (Semantics.binary op a b) σ
      (H.view A σ env vars pc (ops ++ [σ.world.word a] ++ [σ.world.word b]))
      (H.Pushes A σ env vars (pc + 1) ops t) := by
  have hstack : (H.view A σ env vars pc (ops ++ [σ.world.word a] ++ [σ.world.word b])).stack =
      (A.frame σ env vars ++ ops) ++ [σ.world.word a, σ.world.word b] := by
    simp [Host.view]
  have hprim : primitive q = binaryTop q := by cases op <;> cases hq <;> rfl
  refine .prim hA hcode (.of_room fun hroom => ?_)
  rw [hprim]
  rcases binary_agrees hop hq ha hb (room_of_view hroom) with ⟨c, hc, hmachine, hty⟩ |
    ⟨hzero, hmachine⟩
  · refine does_binaryTop hstack (fun w hw => ?_) (fun f hf => ?_)
    · rw [hmachine] at hw
      cases hw
      refine pushes_result hA hc hty ?_
      simp [Host.view, Word.ofNat_add_one]
    · rw [hmachine] at hf
      cases hf
  · refine does_binaryTop hstack (fun w hw => ?_) (fun f hf => ?_)
    · rw [hmachine] at hw
      cases hw
    · rw [hmachine] at hf
      cases hf
      exact .inr (.inr ⟨_, σ, hzero, rfl, rfl⟩)

theorem append_append (o : Output) (a b : Bytes) : (o.append a).append b = o.append (a ++ b) := by
  obtain ⟨sink, written⟩ := o
  have happend : written ++ a ++ b = written ++ (a ++ b) := Array.ext' (by simp)
  cases sink <;> simp [Output.append, happend]

theorem Activation.Valid.of_output (hA : A.Valid H σ env vars) (out : Bytes) :
    A.Valid H { σ with output := out } env vars :=
  hA.of_store (List.prefix_refl _) rfl ⟨hA.store.statics, hA.store.blocks⟩

theorem Host.Sim.println (hA : A.Valid H σ env vars)
    (hcode : H.Carries A pc (within vars [.prim .putintnl])) :
    H.Sim n (Semantics.println w) σ (H.view A σ env vars pc (ops ++ [w]))
      (fun _ => H.Leaves A σ env vars (pc + 1) ops) := by
  have hstack : (H.view A σ env vars pc (ops ++ [w])).stack = (A.frame σ env vars ++ ops) ++
      [w] := by
    simp [Host.view]
  refine .prim hA hcode (does_println hstack (H.accepts σ.output) ?_)
  rw [decimal_newline]
  refine ⟨Pure.pure (), _, rfl, rfl, .pure ⟨List.prefix_refl _, hA.of_output _, ?_⟩⟩
  simp [Host.view, Word.ofNat_add_one, append_append]
  exact ⟨rfl, rfl⟩

end

end Simulation

end MiniJava
