import MiniJava.Proofs.Simulation.Path
/-!
What the instructions of a method do to the picture of an activation, one rule for each kind of
instruction.
-/
namespace MiniJava.Simulation

open Generate Machine Semantics

variable {p : Program} {H : Host p} {A : Activation} {σ : Store} {env : Env} {vars : List Local}

/-- Code of a method stands at an address. -/
structure Host.Carries (H : Host p) (A : Activation) (a : Nat) (code : Scoped) : Prop where
  items : inMethod A.method.params code <+: H.items.drop a
  resides : H.Resides A a code.length

theorem Host.Resides.sub {a b m n : Nat} (h : H.Resides A a m) (ha : a ≤ b)
    (hb : b + n ≤ a + m) : H.Resides A b n := by
  obtain ⟨key, method, start, code, after, vars, hm, hmethod, howner, hmade, hcode, hstart, hend⟩ :=
    h
  exact ⟨key, method, start, code, after, vars, hm, hmethod, howner, hmade, hcode, by omega, by
    omega⟩

namespace Host.Carries

variable {a : Nat} {c₁ c₂ : Scoped} {code₁ code₂ : List Item} {item : Item}

theorem append (h : H.Carries A a (c₁ ++ c₂)) :
    H.Carries A a c₁ ∧ H.Carries A (a + c₁.length) c₂ := by
  obtain ⟨hitems, hresides⟩ := h
  rw [List.length_append] at hresides
  rw [inMethod, List.map_append] at hitems
  refine ⟨⟨(List.prefix_append _ _).trans hitems, hresides.sub (by omega) (by omega)⟩, ?_,
    hresides.sub (by omega) (by omega)⟩
  obtain ⟨rest, hrest⟩ := hitems
  refine ⟨rest, ?_⟩
  rw [← List.drop_drop, ← hrest, List.append_assoc, List.drop_append_of_le_length (by simp),
    List.drop_eq_nil_of_le (by simp), List.nil_append]
  rfl

theorem within_append (h : H.Carries A a (within vars (code₁ ++ code₂))) :
    H.Carries A a (within vars code₁) ∧ H.Carries A (a + code₁.length) (within vars code₂) := by
  rw [within, List.map_append] at h
  simpa [within] using h.append

theorem within_cons (h : H.Carries A a (within vars (item :: code₁))) :
    H.Carries A a (within vars [item]) ∧ H.Carries A (a + 1) (within vars code₁) :=
  (show H.Carries A a (within vars ([item] ++ code₁)) from h).within_append

theorem getElem? (h : H.Carries A a (within vars [item])) :
    H.items[a]? = some (item, some ⟨A.method.params, vars⟩) := by
  obtain ⟨rest, hrest⟩ := h.items
  have hget := congrArg (·[0]?) hrest
  simpa [inMethod, within] using hget.symm

theorem scopeAt (h : H.Carries A a (within vars [item])) :
    H.items.scopeAt a = some (some ⟨A.method.params, vars⟩) := by
  simp [Annotated.scopeAt, h.getElem?]

end Host.Carries

section Rules

variable {α : Type} {m n pc : Nat} {x : Eval α} {Q : α → Store → View → Prop} {ops : List Word}
  {item : Item}
  {instr : Instr}

theorem Host.Sim.atItem (hA : A.Valid H σ env vars) (hcode : H.Carries A pc (within vars [item]))
    (hlink : item.link H.address = .ok instr) (hhalt : instr.op ≠ Op.halt.number) (hn : n ≤ m + 1)
    (h : Does (execute H.code.size instr) (H.view A σ env vars pc ops)
      (fun _ v' => ∃ (y : Eval α) (σ' : Store), x σ = y σ' ∧
      σ'.world.log = σ.world.log ++ logged v' item ∧ H.Sim m y σ' v' Q) (H.MayFail x σ)) :
    H.Sim n x σ (H.view A σ env vars pc ops) Q :=
  .step (.within hA hcode.scopeAt hcode.resides) hcode.getElem? rfl hlink hhalt hn h

theorem Host.Sim.push {w : Word} (hA : A.Valid H σ env vars)
    (hcode : H.Carries A pc (within vars [.instr instr])) (hhalt : instr.op ≠ Op.halt.number)
    (hdoes : ∀ (Q : Unit → View → Prop) (F : Machine.Fault → Output → Prop),
      F .stackOverflow (H.output.append σ.output) →
      Q () (H.view A σ env vars (pc + 1) (ops ++ [w])) →
      Does (execute H.code.size instr) (H.view A σ env vars pc ops) Q F)
    (h : H.Sim n x σ (H.view A σ env vars (pc + 1) (ops ++ [w])) Q) :
    H.Sim n x σ (H.view A σ env vars pc ops) Q :=
  .atItem hA hcode rfl hhalt (Nat.le_succ n) (hdoes _ _ (.inl rfl) ⟨x, σ, rfl,
    (List.append_nil _).symm, h⟩)

theorem view_push (w : Word) : H.view A σ env vars (pc + 1) (ops ++ [w]) =
    { H.view A σ env vars pc ops with stack := (H.view A σ env vars pc ops).stack ++ [w],
                                      cp := (H.view A σ env vars pc ops).cp + 1 } := by
  simp [Host.view, Word.ofNat_add_one]

theorem Host.Sim.literal {w : Word} (hA : A.Valid H σ env vars)
    (hcode : H.Carries A pc (within vars [.literal w]))
    (h : H.Sim n x σ (H.view A σ env vars (pc + 1) (ops ++ [w])) Q) :
    H.Sim n x σ (H.view A σ env vars pc ops) Q :=
  .push hA hcode (Instr.of_op_ne (by decide))
    (fun _ _ hover hQ => does_literal (fun _ => hover) (view_push w ▸ hQ)) h

theorem Host.Sim.this (hA : A.Valid H σ env vars) (hcode : H.Carries A pc (within vars [.this]))
    (h : H.Sim n x σ (H.view A σ env vars (pc + 1) (ops ++ [A.object])) Q) :
    H.Sim n x σ (H.view A σ env vars pc ops) Q :=
  .push hA hcode (Instr.of_op_ne (by decide))
    (fun _ _ hover hQ => does_this (fun _ => hover) (view_push A.object ▸ hQ)) h

theorem Host.Sim.load {r : Reg} {d w : Word} {i : Nat} (hr : r ∈ [Reg.cb, Reg.sb, Reg.lb, Reg.ob])
    (hA : A.Valid H σ env vars) (hcode : H.Carries A pc (within vars [.instr (.of .load 0 r d)]))
    (hi : (H.view A σ env vars pc ops).base r + d = Word.ofNat i)
    (hw : (A.frame σ env vars)[i]? = some w)
    (h : H.Sim n x σ (H.view A σ env vars (pc + 1) (ops ++ [w])) Q) :
    H.Sim n x σ (H.view A σ env vars pc ops) Q := by
  refine .push hA hcode (Instr.of_op_ne (by decide)) (fun _ _ hover hQ => ?_) h
  refine does_loadStack hr hi ?_ (fun _ => hover) (view_push w ▸ hQ)
  rw [Host.view, List.getElem?_append_left (List.getElem?_eq_some_iff.mp hw).1, hw]

end Rules

section Frame

variable {i j : Nat} {v : Val} {x : Local}

theorem frame_static (h : σ.statics[i]? = some v) :
    (A.frame σ env vars)[i]? = some (σ.world.word v) := by
  have hlt := (List.getElem?_eq_some_iff.mp h).1
  simp only [Activation.frame, List.append_assoc]
  rw [List.getElem?_append_left (by simpa using hlt), List.getElem?_map, h]
  rfl

theorem frame_param (h : env.params[i]? = some v) :
    (A.frame σ env vars)[σ.statics.length + A.below.length + i]? = some (σ.world.word v) := by
  have hlt := (List.getElem?_eq_some_iff.mp h).1
  have hlen : (σ.statics.map σ.world.word ++ A.below).length =
      σ.statics.length + A.below.length := by
    simp
  simp only [Activation.frame]
  rw [List.append_assoc, List.append_assoc, List.getElem?_append_right (by omega), hlen,
    Nat.add_sub_cancel_left, List.getElem?_append_left (by simpa using hlt), List.getElem?_map, h]
  rfl

theorem frame_local (h : vars[j]? = some x) :
    (A.frame σ env vars)[σ.statics.length + A.below.length + env.params.length +
      (Frame.linkSize + j)]? =
        some (σ.world.word (env.locals x.1)) := by
  have hlen :
      (σ.statics.map σ.world.word ++ A.below ++ env.params.map σ.world.word ++ [A.ob, A.lb,
      A.back]).length =
        σ.statics.length + A.below.length + env.params.length + Frame.linkSize := by
    simp [Frame.linkSize, Nat.add_assoc]
  rw [Activation.frame, ← Nat.add_assoc, ← hlen, List.getElem?_append_right (Nat.le_add_right _ _),
    Nat.add_sub_cancel_left, List.getElem?_map, h]
  rfl

theorem frame_setStatic (h : i < σ.statics.length) : (A.frame σ env vars).set i (σ.world.word v) =
    A.frame { σ with statics := σ.statics.set i v } env vars := by
  simp only [Activation.frame, List.append_assoc]
  rw [List.set_append, if_pos (by simpa using h), ← List.map_set]
  rfl

theorem frame_setParam (h : i < env.params.length) :
    (A.frame σ env vars).set (σ.statics.length + A.below.length + i) (σ.world.word v) =
      A.frame σ { env with params := env.params.set i v } vars := by
  have hlen : (σ.statics.map σ.world.word ++ A.below).length =
      σ.statics.length + A.below.length := by
    simp
  simp only [Activation.frame]
  rw [List.append_assoc, List.append_assoc, List.set_append, if_neg (by omega), hlen,
    Nat.add_sub_cancel_left, List.set_append, if_pos (by simpa using h), ← List.map_set,
    ← List.append_assoc, ← List.append_assoc]

/-- Locals in scope have numbers of their own. -/
def DistinctNumbers (vars : List Local) : Prop :=
  ∀ (j k : Nat) x y, vars[j]? = some x → vars[k]? = some y → x.1 = y.1 → j = k

theorem distinct_of_places {frame : Frame}
    (h : ∀ (j : Nat) x, vars[j]? = some x → frame.locals[x.1]? = some (Frame.linkSize + j)) :
    DistinctNumbers vars := by
  intro j k x y hx hy heq
  have hj := h j x hx
  rw [heq, h k y hy] at hj
  simp only [Option.some.injEq] at hj
  omega

theorem frame_setLocal (hvars : DistinctNumbers vars) (h : vars[j]? = some x) :
    (A.frame σ env vars).set (σ.statics.length + A.below.length + env.params.length +
      (Frame.linkSize + j))
      (σ.world.word v) = A.frame σ (env.setLocal x.1 v) vars := by
  have hlen :
      (σ.statics.map σ.world.word ++ A.below ++ env.params.map σ.world.word ++ [A.ob, A.lb,
      A.back]).length =
        σ.statics.length + A.below.length + env.params.length + Frame.linkSize := by
    simp [Frame.linkSize, Nat.add_assoc]
  have hlocals : (vars.map fun y => σ.world.word (env.locals y.1)).set j (σ.world.word v) =
      vars.map fun y => σ.world.word ((env.setLocal x.1 v).locals y.1) := by
    refine List.ext_getElem? fun k => ?_
    rw [List.getElem?_set, List.getElem?_map, List.getElem?_map]
    cases hk : vars[k]? with
    | none =>
      have hne : j ≠ k := by
        rintro rfl
        rw [h] at hk
        cases hk
      simp [hne]
    | some y =>
      by_cases hjk : j = k
      · subst hjk
        rw [h] at hk
        cases hk
        simp [Env.setLocal, (List.getElem?_eq_some_iff.mp h).1]
      · have hne : y.1 ≠ x.1 := fun heq => hjk (hvars j k x y h hk heq.symm)
        simp [hjk, Env.setLocal, hne]
  rw [Activation.frame, ← Nat.add_assoc, ← hlen, List.set_append, if_neg (by omega),
    Nat.add_sub_cancel_left, hlocals]
  rfl

end Frame

section Variables

variable {α : Type} {n pc i j : Nat} {x : Eval α} {Q : α → Store → View → Prop} {ops : List Word}
  {v : Val}
  {frame : Frame} {y : Local}

theorem base_param (hA : A.Valid H σ env vars) (hframe : frame.params = A.method.params.length) :
    (H.view A σ env vars pc ops).base .lb + Int64.ofInt (frame.paramOffset i) =
      Word.ofNat (σ.statics.length + A.below.length + i) := by
  refine Word.ofNat_add_ofInt ?_
  rw [Frame.paramOffset, hframe, hA.params.length_eq]
  omega

theorem base_local :
    (H.view A σ env vars pc ops).base .lb + Int64.ofInt ((Frame.linkSize + j : Nat) : Int) =
      Word.ofNat (σ.statics.length + A.below.length + env.params.length + (Frame.linkSize + j)) :=
  Word.ofNat_add_ofInt (by omega)

theorem Host.Sim.loadParam (hA : A.Valid H σ env vars)
    (hframe : frame.params = A.method.params.length)
    (hcode : H.Carries A pc (within vars [.loadVariable (frame.paramOffset i)]))
    (hv : env.params[i]? = some v)
    (h : H.Sim n x σ (H.view A σ env vars (pc + 1) (ops ++ [σ.world.word v])) Q) :
    H.Sim n x σ (H.view A σ env vars pc ops) Q :=
  .load (by simp) hA hcode (base_param hA hframe) (frame_param hv) h

theorem Host.Sim.loadLocal (hA : A.Valid H σ env vars)
    (hcode : H.Carries A pc (within vars [.loadVariable ((Frame.linkSize + j : Nat) : Int)]))
    (hy : vars[j]? = some y)
    (h : H.Sim n x σ (H.view A σ env vars (pc + 1) (ops ++ [σ.world.word (env.locals y.1)])) Q) :
    H.Sim n x σ (H.view A σ env vars pc ops) Q :=
  .load (by simp) hA hcode base_local (frame_local hy) h

theorem Host.Sim.loadStatic (hA : A.Valid H σ env vars)
    (hcode : H.Carries A pc (within vars [.loadField ⟨i, true⟩])) (hv : σ.statics[i]? = some v)
    (h : H.Sim n x σ (H.view A σ env vars (pc + 1) (ops ++ [σ.world.word v])) Q) :
    H.Sim n x σ (H.view A σ env vars pc ops) Q :=
  .load (r := .sb) (by simp) hA hcode (Int64.zero_add _) (frame_static hv) h

theorem Host.Sim.store {r : Reg} {d w : Word} {y : Eval α} {σ' : Store} {v' : View}
    (hr : r ∈ [Reg.cb, Reg.sb, Reg.lb, Reg.ob]) (hA : A.Valid H σ env vars)
    (hcode : H.Carries A pc (within vars [.instr (.of .store 0 r d)]))
    (hi : (H.view A σ env vars pc (ops ++ [w])).base r + d = Word.ofNat i)
    (hlt : i < (A.frame σ env vars).length)
    (hv' : { H.view A σ env vars (pc + 1) ops with
      stack := (A.frame σ env vars).set i w ++ ops } = v')
    (hx : x σ = y σ') (hlog : σ'.world = σ.world) (h : H.Sim n y σ' v' Q) :
    H.Sim n x σ (H.view A σ env vars pc (ops ++ [w])) Q := by
  have hstack : (H.view A σ env vars pc (ops ++ [w])).stack = (A.frame σ env vars ++ ops) ++
      [w] := by
    simp [Host.view]
  refine .atItem hA hcode rfl (Instr.of_op_ne (by decide)) (Nat.le_succ n) ?_
  refine does_storeStack hr hstack hi (by simp; omega) ?_
  refine ⟨y, σ', hx, by simp [logged, hlog], ?_⟩
  rw [List.set_append, if_pos hlt]
  rw [← hv'] at h
  simpa [Host.view, Word.ofNat_add_one] using h

theorem Host.Sim.storeParam (hA : A.Valid H σ env vars)
    (hframe : frame.params = A.method.params.length)
    (hcode : H.Carries A pc (within vars [.storeVariable (frame.paramOffset i)]))
    (hi : i < env.params.length)
    (h : H.Sim n x σ (H.view A σ { env with params := env.params.set i v } vars (pc + 1) ops) Q) :
    H.Sim n x σ (H.view A σ env vars pc (ops ++ [σ.world.word v])) Q := by
  refine .store (by simp) hA hcode (base_param hA hframe) ?_ ?_ rfl rfl h
  · simp [Activation.frame]
    omega
  · simp [frame_setParam hi, Host.view]

theorem Host.Sim.storeLocal (hA : A.Valid H σ env vars) (hvars : DistinctNumbers vars)
    (hcode : H.Carries A pc (within vars [.storeVariable ((Frame.linkSize + j : Nat) : Int)]))
    (hy : vars[j]? = some y)
    (h : H.Sim n x σ (H.view A σ (env.setLocal y.1 v) vars (pc + 1) ops) Q) :
    H.Sim n x σ (H.view A σ env vars pc (ops ++ [σ.world.word v])) Q := by
  have hj := (List.getElem?_eq_some_iff.mp hy).1
  refine .store (by simp) hA hcode base_local ?_ ?_ rfl rfl h
  · simp [Activation.frame, Frame.linkSize]
    omega
  · simp [frame_setLocal hvars hy, Host.view, Env.setLocal]

theorem Host.Sim.storeStatic (hA : A.Valid H σ env vars)
    (hcode : H.Carries A pc (within vars [.storeField ⟨i, true⟩])) (hi : i < σ.statics.length)
    (h : H.Sim n x { σ with statics := σ.statics.set i v }
      (H.view A { σ with statics := σ.statics.set i v } env vars (pc + 1) ops) Q) :
    H.Sim n (do writeStatic i v; x) σ (H.view A σ env vars pc (ops ++ [σ.world.word v])) Q := by
  refine .store (r := .sb) (by simp) hA hcode (Int64.zero_add _) ?_ ?_ rfl rfl h
  · simp [Activation.frame]
    omega
  · rw [frame_setStatic hi]
    simp [Host.view]
    rfl

end Variables

section Jumps

variable {α : Type} {m n pc target : Nat} {x : Eval α} {Q : α → Store → View → Prop}
  {ops : List Word} {w w₀ : Word}

theorem Host.Sim.jump (hA : A.Valid H σ env vars)
    (hcode : H.Carries A pc (within vars [.jump target])) (hn : n ≤ m + 1)
    (h : H.Sim m x σ (H.view A σ env vars target ops) Q) :
    H.Sim n x σ (H.view A σ env vars pc ops) Q :=
  .atItem hA hcode rfl (Instr.of_op_ne (by decide)) hn
    (does_jump ⟨x, σ, rfl, (List.append_nil _).symm, h⟩)

theorem Host.Sim.jumpIf (hA : A.Valid H σ env vars)
    (hcode : H.Carries A pc (within vars [.jumpIf w₀ target])) (hn : n ≤ m + 1)
    (h : H.Sim m x σ (H.view A σ env vars (if w = w₀ then target else pc + 1) ops) Q) :
    H.Sim n x σ (H.view A σ env vars pc (ops ++ [w])) Q := by
  have hstack : (H.view A σ env vars pc (ops ++ [w])).stack = (A.frame σ env vars ++ ops) ++
      [w] := by
    simp [Host.view]
  refine .atItem hA hcode rfl (Instr.of_op_ne (by decide)) hn (does_jumpIf hstack ⟨x, σ, rfl,
    (List.append_nil _).symm, ?_⟩)
  have hcp : (if w = w₀ then Word.ofNat target else Word.ofNat pc + 1) =
      Word.ofNat (if w = w₀ then target else pc + 1) := by
    split
    · rfl
    · exact Word.ofNat_add_one pc
  rw [show (H.view A σ env vars pc (ops ++ [w])).cp = Word.ofNat pc from rfl, hcp]
  exact h

theorem Host.Sim.drop (dropped : List Word) (hA : A.Valid H σ env vars)
    (hcode : H.Carries A pc (within vars [.drop dropped.length]))
    (h : H.Sim n x σ (H.view A σ env vars (pc + 1) ops) Q) :
    H.Sim n x σ (H.view A σ env vars pc (ops ++ dropped)) Q := by
  have hstack : (H.view A σ env vars pc (ops ++ dropped)).stack = (A.frame σ env vars ++ ops) ++
      dropped := by
    simp [Host.view]
  refine .atItem hA hcode rfl (Instr.of_op_ne (by decide)) (Nat.le_succ n)
    (does_dropWords hstack ⟨x, σ, rfl, (List.append_nil _).symm, ?_⟩)
  rw [show (H.view A σ env vars pc (ops ++ dropped)).cp + 1 =
    Word.ofNat (pc + 1) from Word.ofNat_add_one pc]
  exact h

theorem Host.Sim.dropLocals {inner : List Local} (hA : A.Valid H σ env (vars ++ inner))
    (hcode : H.Carries A pc (within (vars ++ inner) [.drop inner.length]))
    (h : H.Sim n x σ (H.view A σ env vars (pc + 1) []) Q) :
    H.Sim n x σ (H.view A σ env (vars ++ inner) pc []) Q := by
  have hstack : (H.view A σ env (vars ++ inner) pc []).stack =
      A.frame σ env vars ++ inner.map fun x => σ.world.word (env.locals x.1) := by
    simp [Host.view, Activation.frame]
  have hlen : inner.length = (inner.map fun x => σ.world.word (env.locals x.1)).length := by simp
  rw [hlen] at hcode
  refine .atItem hA hcode rfl (Instr.of_op_ne (by decide)) (Nat.le_succ n)
    (does_dropWords hstack ⟨x, σ, rfl, (List.append_nil _).symm, ?_⟩)
  rw [show (H.view A σ env (vars ++ inner) pc []).cp + 1 =
    Word.ofNat (pc + 1) from Word.ofNat_add_one pc]
  simpa [Host.view] using h

end Jumps

/-- The machine at an instruction of the same activation, in a store with more blocks. -/
structure Host.Leaves (H : Host p) (A : Activation) (σ : Store) (env : Env) (vars : List Local)
    (pc : Nat) (ops : List Word) (σ' : Store) (v : View) : Prop where
  grows : σ.world <+: σ'.world
  valid : A.Valid H σ' env vars
  view : v = H.view A σ' env vars pc ops

/-- The machine after the value of an expression has been pushed. -/
structure Host.Pushes (H : Host p) (A : Activation) (σ : Store) (env : Env) (vars : List Local)
    (pc : Nat) (ops : List Word) (t : Ty) (a : Val) (σ' : Store) (v : View) : Prop where
  leaves : H.Leaves A σ env vars pc (ops ++ [σ'.world.word a]) σ' v
  has : σ'.world.Has t a

theorem Activation.Valid.of_store {σ' : Store} (hA : A.Valid H σ env vars)
    (hgrows : σ.world <+: σ'.world) (hcount : σ'.statics.length = σ.statics.length)
    (hstore : σ'.Typed p.heads) : A.Valid H σ' env vars where
  store := hstore
  params := hA.params.imp fun _ _ h => h.mono hgrows
  locals x hx := (hA.locals x hx).mono hgrows
  self hstatic := by
    obtain ⟨hobject, hne, hself⟩ := hA.self hstatic
    exact ⟨hobject.trans (hself.word_eq hgrows).symm, hne, hself.mono hgrows⟩
  chain := hcount ▸ hA.chain.mono hgrows

theorem map_word_eq {W W' : World} (hgrows : W <+: W') {vs : List Val}
    (h : ∀ v ∈ vs, ∃ t, W.Has t v) : vs.map W'.word = vs.map W.word := by
  refine List.map_congr_left fun v hv => ?_
  obtain ⟨t, ht⟩ := h v hv
  exact ht.word_eq hgrows

theorem exists_of_forall₂ {α β : Type} {R : α → β → Prop} {xs : List α} {ys : List β}
    (h : List.Forall₂ R xs ys) : ∀ y ∈ ys, ∃ x, R x y := by
  induction h with
  | nil => nofun
  | cons hab _ ih =>
    intro y hy
    rcases List.mem_cons.mp hy with rfl | hy
    · exact ⟨_, hab⟩
    · exact ih y hy

theorem frame_grows {σ' : Store} (hA : A.Valid H σ env vars) (hgrows : σ.world <+: σ'.world)
    (hstatics : σ'.statics = σ.statics) : A.frame σ' env vars = A.frame σ env vars := by
  have hstatic : ∀ v ∈ σ.statics, ∃ t, σ.world.Has t v := by
    intro v hv
    obtain ⟨x, hx⟩ := exists_of_forall₂ hA.store.statics v hv
    exact ⟨_, hx⟩
  have hparam : ∀ v ∈ env.params, ∃ t, σ.world.Has t v := by
    intro v hv
    obtain ⟨x, hx⟩ := exists_of_forall₂ hA.params v hv
    exact ⟨_, hx⟩
  have hlocals : vars.map (fun x => σ'.world.word (env.locals x.1)) = vars.map fun x =>
      σ.world.word (env.locals x.1) :=
    List.map_congr_left fun x hx => (hA.locals x hx).word_eq hgrows
  rw [Activation.frame, hstatics, map_word_eq hgrows hstatic, map_word_eq hgrows hparam, hlocals,
    Activation.frame]

theorem heapImage_grows {W W' : World} {heap : List Block} {classes : List ClassHead}
    (hgrows : W <+: W')
    (h : ∀ b ∈ heap, b.Typed classes W) : heapImage W' heap = heapImage W heap := by
  induction heap with
  | nil => rfl
  | cons b heap ih =>
    have hcells : ∀ v ∈ b.cells, ∃ t, W.Has t v := by
      intro v hv
      obtain ⟨i, hi⟩ := List.mem_iff_getElem?.mp hv
      obtain ⟨t, -, ht⟩ := (h b List.mem_cons_self).cells i v hi
      exact ⟨t, ht⟩
    rw [heapImage, heapImage, ih fun c hc => h c (List.mem_cons_of_mem _ hc), Block.image,
      Block.image, map_word_eq hgrows hcells]

end MiniJava.Simulation
