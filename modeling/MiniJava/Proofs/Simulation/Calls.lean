import MiniJava.Proofs.Simulation.Instructions
import MiniJava.Proofs.Simulation.Lookup
/-!
Calls and returns: what a call makes of the caller's activation, and that a return gives it back
with the result in the place of the arguments.
-/
namespace MiniJava.Simulation

open Generate Machine Semantics

variable {p : Program} {H : Host p} {A : Activation} {σ : Store} {env : Env} {vars : List Local}

/-- The activation that a call at `pc` creates. -/
def Activation.callee (A : Activation) (σ : Store) (env : Env) (vars : List Local) (pc : Nat)
    (ops : List Word) (owner : String) (m : Signature) (object : Word) : Activation where
  owner
  method := m
  below := A.below ++ env.params.map σ.world.word ++ [A.ob, A.lb, A.back] ++
    (vars.map fun x => σ.world.word (env.locals x.1)) ++ ops
  ob := A.object
  lb := Word.ofNat (σ.statics.length + A.below.length + env.params.length)
  back := Word.ofNat (pc + 1)
  object

/-- The variables of a method on entry. -/
def entryEnv (self : Val) (args : List Val) : Env := ⟨self, args, fun _ => .zero⟩

/-- The machine after an activation has returned. -/
def Host.returned (H : Host p) (A : Activation) (σ : Store) (results : List Word) : View where
  stack := σ.statics.map σ.world.word ++ A.below ++ results
  heap := heapImage σ.world σ.heap
  lb := A.lb
  ob := A.ob
  cp := A.back
  input := H.input
  output := H.output.append σ.output

/-- A method of type void gives no result, and any other one a value of its type. -/
def IsResult (W : World) (t : Ty) : Option Val → Prop
  | none => t = .void
  | some v => t ≠ .void ∧ W.Has t v

/-- An activation has returned. -/
structure Host.Returns (H : Host p) (A : Activation) (σ : Store) (t : Ty) (r : Option Val)
    (σ' : Store) (v : View) : Prop where
  grows : σ.world <+: σ'.world
  store : σ'.Typed p.heads
  result : IsResult σ'.world t r
  view : v = H.returned A σ' (r.toList.map σ'.world.word)

/-- The caller has got the result of a call. -/
structure Host.Answers (H : Host p) (A : Activation) (σ : Store) (env : Env) (vars : List Local)
    (pc : Nat) (ops : List Word) (t : Ty) (r : Option Val) (σ' : Store) (v : View) : Prop where
  leaves : H.Leaves A σ env vars pc (ops ++ r.toList.map σ'.world.word) σ' v
  result : IsResult σ'.world t r

/-- Calls with the fuel that is left are followed. -/
def Host.FollowsCalls (H : Host p) (n : Nat) (R : Reentry) : Prop :=
  ∀ (key : MethodKey) (m : Method) (a : Nat) (A : Activation) (σ : Store) (self : Val)
    (args : List Val),
    p.method? key = some m → H.address key = some a → A.method = m.toSignature →
      A.owner = key.owner →
    A.Valid H σ (entryEnv self args) [] →
    H.Sim n (R.call key self args) σ (H.view A σ (entryEnv self args) [] a [])
      (H.Returns A σ m.type.ty)

section

variable {n pc : Nat} {ops : List Word} {owner : String} {m : Signature} {object : Word}
  {self : Val}
  {args : List Val} {t : Ty} {r : Option Val} {σ' : Store} {v : View}

/-- The caller's frame after the call, whatever the callee did to the static fields and the heap. -/
theorem Host.Returns.answers (hA : A.Valid H σ env vars)
    (h : H.Returns (A.callee σ env vars pc ops owner m object) σ t r σ' v) :
    H.Answers A σ env vars (pc + 1) ops t r σ' v := by
  have hcount : σ'.statics.length = σ.statics.length := h.store.count.trans hA.store.count.symm
  refine ⟨⟨h.grows, hA.of_store h.grows hcount h.store, ?_⟩, h.result⟩
  have hparams : env.params.map σ'.world.word = env.params.map σ.world.word :=
    map_word_eq h.grows fun v hv => by
      obtain ⟨x, hx⟩ := exists_of_forall₂ hA.params v hv
      exact ⟨_, hx⟩
  have hlocals : vars.map (fun x => σ'.world.word (env.locals x.1)) = vars.map fun x =>
      σ.world.word (env.locals x.1) :=
    List.map_congr_left fun x hx => (hA.locals x hx).word_eq h.grows
  rw [h.view, Host.returned, Host.view, Activation.frame, hparams, hlocals, hcount]
  simp [Activation.callee]

theorem Activation.Valid.suspended (hA : A.Valid H σ env vars)
    (hscope : H.items.scopeAt pc = some (some ⟨A.method.params, vars⟩)) (ops : List Word) :
    Chain H σ.world σ.statics.length (A.below ++ env.params.map σ.world.word ++ [A.ob, A.lb,
      A.back] ++
        (vars.map fun x => σ.world.word (env.locals x.1)) ++ ops)
      (Word.ofNat (σ.statics.length + A.below.length + env.params.length))
      (Word.ofNat (pc + 1)) := by
  have hparams :
      List.Forall₂ (fun v w => σ.world.Holds v.type.ty w) A.method.params
      (env.params.map σ.world.word) :=
    List.forall₂_map_right_iff.mpr (hA.params.imp fun _ a h => ⟨a, h, rfl⟩)
  have hlocals : List.Forall₂ (fun (x : Local) w => σ.world.Holds x.2.type.ty w) vars
      (vars.map fun x => σ.world.word (env.locals x.1)) :=
    List.forall₂_map_right_iff.mpr (List.forall₂_same.mpr fun x hx => ⟨_, hA.locals x hx, rfl⟩)
  have hchain : Chain H _ _ (_ ++ [A.ob, A.lb, A.back] ++ _ ++ ops) _ _ :=
    hA.chain.call hscope hparams hlocals
  rwa [List.length_map] at hchain

theorem Activation.Valid.callee (hA : A.Valid H σ env vars)
    (hscope : H.items.scopeAt pc = some (some ⟨A.method.params, vars⟩))
    (hargs : List.Forall₂ (fun v a => σ.world.Has v.type.ty a) m.params args)
    (hself : m.isStatic = false → object = σ.world.word self ∧ self ≠ .zero ∧
      σ.world.Has (.cls owner) self) :
    (A.callee σ env vars pc ops owner m object).Valid H σ (entryEnv self args) [] where
  store := hA.store
  params := hargs
  locals := nofun
  self := hself
  chain := hA.suspended hscope ops

theorem view_callee {a : Nat} :
    H.view (A.callee σ env vars pc ops owner m object) σ (entryEnv self args) [] a [] =
      { H.view A σ env vars pc (ops ++ args.map σ.world.word) with
      stack := (H.view A σ env vars pc (ops ++ args.map σ.world.word)).stack ++ [A.object,
      Word.ofNat (σ.statics.length + A.below.length + env.params.length), Word.ofNat (pc + 1)],
      lb := Word.ofNat (H.view A σ env vars pc (ops ++ args.map σ.world.word)).stack.length, ob :=
      object, cp := Word.ofNat a } := by
  have hlen : σ.statics.length + (A.callee σ env vars pc ops owner m object).below.length +
      args.length =
        (H.view A σ env vars pc (ops ++ args.map σ.world.word)).stack.length := by
    simp [Host.view, Activation.frame, Activation.callee]
    omega
  rw [← hlen]
  simp [Host.view, Activation.frame, Activation.callee, entryEnv]

theorem link_call {key : MethodKey} {a : Nat} (h : H.address key = some a) :
    (Item.call key).link H.address = .ok (.of .call 0 .cb (Word.ofNat a)) := by
  simp only [Item.link, h]

theorem link_callOn {key : MethodKey} {a : Nat} (h : H.address key = some a) :
    (Item.callOn key).link H.address = .ok (.of .calli 0 .cb (Word.ofNat a)) := by
  simp only [Item.link, h]

theorem Host.Sim.call {R : Reentry} {key : MethodKey} {method : Method} (hR : H.FollowsCalls n R)
    (hA : A.Valid H σ env vars) (hcode : H.Carries A pc (within vars [.call key]))
    (hmethod : p.method? key = some method) (hstatic : method.isStatic = true)
    (hargs : List.Forall₂ (fun v a => σ.world.Has v.type.ty a) method.params args) :
    H.Sim (n + 1) (R.call key .zero args) σ (H.view A σ env vars pc (ops ++ args.map σ.world.word))
      (H.Answers A σ env vars (pc + 1) ops method.type.ty) := by
  obtain ⟨a, ha, -⟩ := H.methods key method hmethod
  have hvalid :
      (A.callee σ env vars pc ops key.owner method.toSignature A.object).Valid H σ
      (entryEnv .zero args) [] :=
    hA.callee hcode.scopeAt hargs fun h => absurd (hstatic.symm.trans h) nofun
  have hcall := (hR key method a _ σ .zero args hmethod ha rfl rfl hvalid).weaken (Nat.le_refl n)
    fun _ _ _ h => h.answers hA
  refine .atItem hA hcode (link_call ha) (Instr.of_op_ne (by decide)) (Nat.le_refl _)
    (does_callCode (fun _ => .inl rfl) ⟨_, σ, rfl, (List.append_nil _).symm, ?_⟩)
  rw [view_callee] at hcall
  simpa [Host.view, Word.ofNat_add_one] using hcall

/-- A call on an object; on the null reference it is not followed. -/
theorem Host.Sim.callOn {R : Reentry} {key : MethodKey} {method : Method} (hR : H.FollowsCalls n R)
    (hA : A.Valid H σ env vars) (hcode : H.Carries A pc (within vars [.callOn key]))
    (hmethod : p.method? key = some method) (hself : σ.world.Has (.cls key.owner) self)
    (hargs : List.Forall₂ (fun v a => σ.world.Has v.type.ty a) method.params args) :
    H.Sim (n + 1) (if self = .zero then fail .nullPointer else R.call key self args) σ
      (H.view A σ env vars pc (ops ++ args.map σ.world.word ++ [σ.world.word self]))
      (H.Answers A σ env vars (pc + 1) ops method.type.ty) := by
  obtain ⟨a, ha, -⟩ := H.methods key method hmethod
  by_cases hnull : self = .zero
  · refine .escape (.within hA hcode.scopeAt hcode.resides) fun s hs => ?_
    obtain ⟨instr, hlink, hget⟩ := H.linked pc _ hcode.getElem?
    cases (link_callOn ha).symm.trans hlink
    obtain ⟨hlt, hget⟩ := Array.getElem?_eq_some_iff.mp hget
    refine ⟨⟨pc, hlt⟩, ?_, ?_, ?_⟩
    · rw [hs.cp]
      exact Word.index?_ofNat hlt (Nat.lt_trans hlt H.small)
    · exact congrArg Instr.op hget
    · rw [hs.top, hnull]
      simp [Host.view]
  · rw [if_neg hnull]
    have hvalid :
        (A.callee σ env vars pc ops key.owner method.toSignature (σ.world.word self)).Valid H σ
        (entryEnv self args) [] :=
      hA.callee hcode.scopeAt hargs fun _ => ⟨rfl, hnull, hself⟩
    have hcall := (hR key method a _ σ self args hmethod ha rfl rfl hvalid).weaken (Nat.le_refl n)
      fun _ _ _ h => h.answers hA
    have hstack :
        (H.view A σ env vars pc (ops ++ args.map σ.world.word ++ [σ.world.word self])).stack =
          (H.view A σ env vars pc (ops ++ args.map σ.world.word)).stack ++ [σ.world.word self] := by
      simp [Host.view]
    refine .atItem hA hcode (link_callOn ha) (Instr.of_op_ne (by decide)) (Nat.le_refl _)
      (does_callCodeOn hstack (fun _ => .inl rfl) ⟨_, σ, rfl, (List.append_nil _).symm, ?_⟩)
    rw [view_callee] at hcall
    simpa [Host.view, Word.ofNat_add_one] using hcall

theorem Host.Sim.ret {α : Type} {x : Eval α} {Q : α → Store → View → Prop} (results : List Word)
    (hA : A.Valid H σ env vars)
    (hcode : H.Carries A pc (within vars [.ret results.length A.method.params.length]))
    (hresults : results.length ≤ 1) (h : H.Sim n x σ (H.returned A σ results) Q) :
    H.Sim n x σ (H.view A σ env vars pc results) Q := by
  have hparams : A.method.params.length = (env.params.map σ.world.word).length := by
    rw [List.length_map, hA.params.length_eq]
  have hstack : (H.view A σ env vars pc results).stack = (σ.statics.map σ.world.word ++ A.below) ++
      env.params.map σ.world.word ++ A.ob :: A.lb :: A.back ::
        ((vars.map fun x => σ.world.word (env.locals x.1)) ++ results) := by
    simp [Host.view, Activation.frame]
  have hlb : (H.view A σ env vars pc results).lb =
      Word.ofNat ((σ.statics.map σ.world.word ++ A.below) ++
        env.params.map σ.world.word).length := by
    simp [Host.view, Nat.add_assoc]
  rw [hparams] at hcode
  refine .atItem hA hcode rfl (Instr.of_op_ne (by decide)) (Nat.le_succ n)
    (does_return hstack hlb hresults ⟨x, σ, rfl, (List.append_nil _).symm, ?_⟩)
  exact h

end

end MiniJava.Simulation
