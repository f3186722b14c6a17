import MiniJava.Proofs.Simulation.Statements
/-!
A machine that runs the code of a whole program: it makes room for the static fields, calls the
entry method and stops.
-/
namespace MiniJava

open Generate Machine Semantics

/-- A source that all passes accept: the program with its names resolved, its entry method and its
code. -/
structure Program.IsBuilt (p : Program) (source : Bytes) (entry : MethodKey)
    (code : Code) : Prop where
  resolved : ∃ q, Program.parse source = .ok q ∧ q.resolve = .ok p
  checked : p.check.errors = []
  enters : p.check.entry = some entry
  generated : p.generate (some entry) = .ok code

/-- Runs all passes over a source. -/
def Program.build? (source : Bytes) : Option (Program × MethodKey × Code) :=
  match Program.parse source with
  | .error _ => none
  | .ok q =>
    match q.resolve with
    | .error _ => none
    | .ok p =>
      match p.check.errors, p.check.entry with
      | [], some entry => (p.generate (some entry)).toOption.map (p, entry, ·)
      | _, _ => none

theorem Program.isBuilt_of_build? {p : Program} {source : Bytes} {entry : MethodKey} {code : Code}
    (h : Program.build? source = some (p, entry, code)) : p.IsBuilt source entry code := by
  unfold Program.build? at h
  split at h
  · cases h
  · rename_i q hq
    split at h
    · cases h
    · rename_i p' hp'
      split at h
      · rename_i hchecked henters
        cases hcode : p'.generate (some _) with
        | error e =>
          rw [hcode] at h
          cases h
        | ok code' =>
          rw [hcode] at h
          cases h
          exact ⟨⟨q, hq, hp'⟩, hchecked, henters, hcode⟩
      · cases h

namespace Program.IsBuilt

variable {p : Program} {source : Bytes} {entry : MethodKey} {code : Code}

theorem accepted (h : p.IsBuilt source entry code) : p.Accepted := by
  obtain ⟨q, hparse, hresolve⟩ := h.resolved
  refine ⟨bound_of_resolve hresolve, (wellTyped_of_check hresolve h.checked).1.methods, ?_⟩
  exact admitted_of_resolve hresolve (admitted_of_parse hparse)

theorem exists_draft (h : p.IsBuilt source entry code) :
    ∃ d, p.draft entry = .ok d ∧ d.link = .ok code := by
  have hgenerated := h.generated
  rw [Program.generate_eq_link] at hgenerated
  exact Except.bind_eq_ok.mp hgenerated

theorem exists_entry (h : p.IsBuilt source entry code) :
    ∃ m, p.method? entry = some m ∧ m.IsEntry := by
  obtain ⟨q, -, hresolve⟩ := h.resolved
  obtain ⟨-, key, hkey, before, m, after, hsplit, hname, hentry, -⟩ :=
    wellTyped_of_check hresolve h.checked
  cases h.enters.symm.trans hkey
  have hmem : (entry.owner, m) ∈ p.methods := by simp [hsplit]
  obtain ⟨-, -, -, -, hmethod⟩ := @Program.hasMethod_of_mem p (p.setting entry.owner m) rfl _ hmem
  have hprint : isPrintln entry.owner m.toSignature = false := by
    rw [isPrintln, hentry.name]
    exact Bool.and_false _
  obtain ⟨method, hfound, hsignature⟩ := h.accepted.bound.exists_method? rfl hmethod hprint
  rw [hname] at hfound
  exact ⟨method, hfound, hsignature ▸ hentry⟩

end Program.IsBuilt

theorem Program.length_staticFields (p : Program) :
    (staticFields p.heads).length = p.staticCount := by
  simp only [staticFields, Program.heads, Program.staticCount, List.length_flatMap, List.map_map,
    List.length_map]
  congr 2
  funext c
  simp [ClassHead.fieldsOf, ClassDecl.head]

theorem Program.staticCount_pos (p : Program) : 0 < p.staticCount := by
  rw [Program.staticCount, Program.allClasses, List.flatMap_append, List.length_append]
  exact Nat.add_pos_right _ (by decide)

namespace Simulation

variable {p : Program} {source : Bytes} {entry : MethodKey} {code : Code}

/-- The machine with the code of a program that fits in words, and with an output that takes every
write. -/
theorem exists_host (h : p.IsBuilt source entry code) (hcode : code.size < 2 ^ 63)
    (hfields : ∀ c ∈ p.heads, c.fields.length < 2 ^ 63) (input : Option Input) (sink : Sink)
    (hsink : ∀ size failure, sink ≠ .limited size failure) :
    ∃ H : Host p, H.code = code ∧ H.input = input ∧ H.output = { sink } ∧
      p.annotated entry = .ok H.items ∧
      (preamble p.staticCount entry).map (·, none) <+: H.items := by
  obtain ⟨d, hdraft, hlink⟩ := h.exists_draft
  obtain ⟨instrs, hinstrs, hrest⟩ := Except.bind_eq_ok.mp hlink
  cases hrest
  obtain ⟨items, hitems, hfst, hpreamble, hfound⟩ := Program.annotated_of_draft hdraft
  refine ⟨{ items, address := d.address, code := instrs.toArray, input, output := { sink },
            accepted := h.accepted, linked := ?_, small := hcode, methods := ?_, fields := hfields,
            accepts := ?_ }, rfl, rfl, rfl, hitems, hpreamble⟩
  · intro a x hx
    have hget : d.items[a]? = some x.1 := by rw [← hfst, List.getElem?_map, hx]; rfl
    obtain ⟨i, hi, hi'⟩ := getElem?_of_mapM hinstrs hget
    exact ⟨i, hi, by simpa using hi'⟩
  · intro key m hm
    obtain ⟨x, hx, rfl⟩ := Option.map_eq_some_iff.mp hm
    exact hfound key x hx
  · intro bs n
    cases sink with
    | limited size failure => exact absurd rfl (hsink size failure)
    | discard | accept => rfl

/-- The store when room for some static fields has been made. -/
def reserved (i : Nat) : Store := ⟨List.replicate i .zero, [], []⟩

theorem outside_of_typed {H : Host p} {σ : Store} (h : σ.Typed p.heads)
    (ops : List Word) : Outside H σ ops where
  statics i x v hx hv := by
    obtain ⟨v', hv', hty⟩ := forall₂_getElem? h.statics hx
    cases hv.symm.trans hv'
    exact hty
  blocks := h.blocks
  complete _ := Nat.le_of_eq h.count.symm

theorem outside_reserved {H : Host p} (i : Nat) : Outside H (reserved i) [] where
  statics j x v _ hv := by
    rw [List.eq_of_mem_replicate (List.mem_of_getElem? hv)]
    exact World.has_zero _
  blocks := nofun
  complete h := absurd rfl h

theorem typed_initialStore (p : Program) : p.initialStore.Typed p.heads where
  statics := by
    refine List.forall₂_iff_get.mpr ⟨by simp [Program.initialStore], fun i _ _ => ?_⟩
    simp only [Program.initialStore, List.get_eq_getElem, List.getElem_replicate]
    exact World.has_zero _
  blocks := nofun

section Preamble

variable {H : Host p} {α : Type} {n : Nat} {σ : Store} {ops : List Word}
  {Q : α → Store → View → Prop}

theorem Host.Sim.outer {a : Nat} {x : Eval α} {item : Item} {instr : Instr}
    (hitem : H.items[a]? = some (item, none)) (hσ : Outside H σ ops)
    (hlink : item.link H.address = .ok instr) (hhalt : instr.op ≠ Op.halt.number)
    (h : Does (execute H.code.size instr) (H.outerView σ a ops)
      (fun _ v' => ∃ (y : Eval α) (σ' : Store), x σ = y σ' ∧
      σ'.world.log = σ.world.log ++ logged v' item ∧ H.Sim n y σ' v' Q) (H.MayFail x σ)) :
    H.Sim n x σ (H.outerView σ a ops) Q :=
  .step (.outside hσ (by simp [Annotated.scopeAt, hitem])) hitem rfl hlink hhalt (Nat.le_succ n) h

theorem sim_reserve {r : EStateM.Result Halt Store α} {i k : Nat}
    (hitems : ∀ j < i + k, H.items[j]? = some (.reserve 1, none))
    (h : H.Sim n (fun _ => r) (reserved (i + k)) (H.outerView (reserved (i + k)) (i + k) []) Q) :
    H.Sim n (fun _ => r) (reserved i) (H.outerView (reserved i) i []) Q := by
  induction k generalizing i with
  | zero => exact h
  | succ k ih =>
    have hnext :=
      ih (i := i + 1)
        (fun j hj => hitems j (by omega)) (by rw [Nat.add_assoc, Nat.add_comm 1]; exact h)
    refine .outer (hitems i (by omega)) (outside_reserved i) rfl (Instr.of_op_ne (by decide)) ?_
    refine does_reserve (fun _ => .inl rfl) ⟨fun _ => r, reserved (i + 1), rfl, rfl, ?_⟩
    have hview : H.outerView (reserved (i + 1)) (i + 1) [] =
        { H.outerView (reserved i) i [] with stack := (H.outerView (reserved i) i []).stack ++ [0],
                                             cp := (H.outerView (reserved i) i []).cp + 1 } := by
      simp [Host.outerView, reserved, Word.ofNat_add_one, List.replicate_succ']
      rfl
    rw [hview] at hnext
    exact hnext

end Preamble

/-- Where the preamble has its items. -/
structure Opens (H : Host p) (k : Nat) (entry : MethodKey) : Prop where
  reserve : ∀ j < k, H.items[j]? = some (.reserve 1, none)
  literal : H.items[k]? = some (.literal 0, none)
  create : H.items[k + 1]? = some (.create (.array (.cls Library.string.name)), none)
  call : H.items[k + 2]? = some (.call entry, none)
  halt : H.items[k + 3]? = some (.halt, none)

theorem opens_of_preamble {H : Host p} {k : Nat}
    (h : (preamble k entry).map (·, none) <+: H.items) : Opens H k entry := by
  obtain ⟨rest, hrest⟩ := h
  have hlen : (List.replicate k (Item.reserve 1)).length = k := List.length_replicate
  have hafter (j : Nat) (hj : j < 4) : H.items[k + j]? =
      ([Item.literal 0, .create (.array (.cls Library.string.name)), .call entry, .halt].map (·,
        none))[j]? := by
    rw [← hrest, preamble, List.map_append, List.append_assoc, List.getElem?_append_right (by simp)]
    simp only [List.length_map, hlen, Nat.add_sub_cancel_left]
    exact List.getElem?_append_left (by simpa using hj)
  refine ⟨fun j hj => ?_, hafter 0 (by decide), hafter 1 (by decide), hafter 2 (by decide),
    hafter 3 (by decide)⟩
  rw [← hrest, preamble, List.map_append, List.append_assoc,
    List.getElem?_append_left (by simpa using hj)]
  simp [hj]

section Start

variable {H : Host p} {n : Nat} {α : Type} {Q : α → Store → View → Prop} {σ : Store}

/-- The activation of the entry method. -/
def entryActivation (entry : MethodKey) (m : Signature) (pc : Nat) : Activation where
  owner := entry.owner
  method := m
  below := []
  ob := 0
  lb := 0
  back := Word.ofNat (pc + 1)
  object := 0

theorem valid_entry {m : Method} {a : Val} {pc : Nat} (hm : m.IsEntry) (hσ : σ.Typed p.heads)
    (hscope : H.items.scopeAt pc = some none)
    (ha : σ.world.Has (.array (.cls Library.string.name)) a) :
    (entryActivation entry m.toSignature pc).Valid H σ (entryEnv .zero [a]) [] where
  store := hσ
  params := by
    obtain ⟨v, hv, hty⟩ := List.map_eq_singleton_iff.mp hm.params
    change List.Forall₂ _ m.params [a]
    rw [hv]
    exact .cons (hty ▸ ha) .nil
  locals := nofun
  self hstatic := absurd (hm.static.symm.trans hstatic) nofun
  chain := .entry hscope

theorem sim_enter {m : Method} {a : Val} {pc : Nat} (hm : p.method? entry = some m)
    (hentry : m.IsEntry) (hσ : σ.Typed p.heads) (hitem : H.items[pc]? = some (.call entry, none))
    (ha : σ.world.Has (.array (.cls Library.string.name)) a) :
    H.Sim n (do let _ ← (p.reentry n).call entry .zero [a]) σ (H.outerView σ pc [σ.world.word a])
      (fun _ σ' v => σ'.Typed p.heads ∧ v = H.outerView σ' (pc + 1) []) := by
  obtain ⟨address, haddress, -⟩ := H.methods entry m hm
  have hscope : H.items.scopeAt pc = some none := by simp [Annotated.scopeAt, hitem]
  have hvalid : (entryActivation entry m.toSignature pc).Valid H σ (entryEnv .zero [a]) [] :=
    valid_entry hentry hσ hscope ha
  have hcall := (follows H n).1 entry m address _ σ .zero [a] hm haddress rfl rfl hvalid
  have hview :
      H.view (entryActivation entry m.toSignature pc) σ (entryEnv .zero [a]) [] address [] =
        { H.outerView σ pc [σ.world.word a] with
        stack := (H.outerView σ pc [σ.world.word a]).stack ++ [0, 0, Word.ofNat pc + 1],
        lb := Word.ofNat (H.outerView σ pc [σ.world.word a]).stack.length,
        cp := Word.ofNat address } := by
    simp [Host.view, Host.outerView, Activation.frame, entryActivation, entryEnv,
      Word.ofNat_add_one]
  rw [hview] at hcall
  refine .outer hitem (outside_of_typed hσ _) (link_call haddress) (Instr.of_op_ne (by decide)) ?_
  refine does_callCode (fun _ => .inl rfl) ⟨_, σ, rfl, (List.append_nil _).symm, .bind hcall ?_⟩
  rintro r σ' v ⟨-, hstore, hresult, rfl⟩
  have hnone : r = none := by
    cases r with
    | none => rfl
    | some b => exact absurd hentry.void hresult.1
  subst hnone
  exact .pure ⟨hstore, by simp [Host.returned, Host.outerView, entryActivation]⟩

theorem outerView_create {kind : BlockKind} {k pc : Nat} (hσ : σ.Typed p.heads) :
    H.outerView (σ.create kind k) (pc + 1) [(σ.create kind k).world.word (.loc σ.heap.length)] =
      { H.outerView σ pc [] with
        stack := σ.statics.map σ.world.word ++
          [Word.ofNat (memorySize - (heapImage σ.world σ.heap).length - k)],
        heap := kind.classWord :: Word.ofNat k :: (List.replicate k 0 ++ heapImage σ.world σ.heap),
        cp := Word.ofNat pc + 1 } := by
  have hwords : (σ.create kind k).statics.map (σ.create kind k).world.word =
      σ.statics.map σ.world.word := by
    refine map_word_eq (σ.world_prefix_create kind k) fun v hv => ?_
    obtain ⟨x, hx⟩ := exists_of_forall₂ hσ.statics v hv
    exact ⟨_, hx⟩
  rw [Host.outerView, hwords, word_create, heapImage_create kind k hσ.blocks, ← Word.ofNat_add_one]
  rfl

/-- The code of a program from the creation of the arguments on. -/
theorem sim_createArguments (h : p.IsBuilt source entry code)
    (hopens : Opens H p.staticCount entry) (n : Nat) :
    H.Sim n (fun _ => p.evaluate entry n) p.initialStore
      (H.outerView p.initialStore (p.staticCount + 1) [0])
      (fun _ σ v => σ.Typed p.heads ∧ v = H.outerView σ (p.staticCount + 3) []) := by
  obtain ⟨m, hm, hentry⟩ := h.exists_entry
  have hσ := typed_initialStore p
  have hstatics : p.initialStore.statics.map p.initialStore.world.word ≠ [] := by
    simp [Program.initialStore, Program.length_staticFields, Nat.ne_of_gt p.staticCount_pos]
  have hcreated : (p.initialStore.create (.array (.cls Library.string.name)) 0).Typed p.heads :=
    hσ.create nofun nofun
  have henter := sim_enter (n := n) hm hentry hcreated hopens.call has_create
  refine .outer hopens.create (outside_of_typed hσ _) rfl (Instr.of_op_ne (by decide))
    (does_prim (.bind (does_pop rfl ?_)))
  refine does_create hstatics (fun hneg => absurd hneg (by decide)) (fun _ => .inr (.inl rfl))
    fun k hsize hint => ?_
  obtain rfl : k = 0 := Int.ofNat.inj (hint.symm.trans rfl)
  refine ⟨_, _, (rfl : p.evaluate entry n = (do
    let _ ← (p.reentry n).call entry .zero [.loc p.initialStore.heap.length])
      (p.initialStore.create (.array (.cls Library.string.name)) 0)), ?_, ?_⟩
  · rw [log_create, word_create]
    simp [logged, View.heapTop, Host.outerView, Program.initialStore, heapImage]
  · rw [outerView_create hσ] at henter
    exact henter

/-- The whole code of a program, up to its last instruction. -/
theorem sim_program (h : p.IsBuilt source entry code) (hopens : Opens H p.staticCount entry)
    (n : Nat) :
    H.Sim n (fun _ => p.evaluate entry n) (reserved 0) (H.outerView (reserved 0) 0 [])
      (fun _ σ v => σ.Typed p.heads ∧ v = H.outerView σ (p.staticCount + 3) []) := by
  have hinitial : reserved p.staticCount = p.initialStore := by
    rw [reserved, Program.initialStore, Program.length_staticFields]
  have hview : { H.outerView p.initialStore p.staticCount [] with
      stack := (H.outerView p.initialStore p.staticCount []).stack ++ [0]
      cp := (H.outerView p.initialStore p.staticCount []).cp + 1 } =
      H.outerView p.initialStore (p.staticCount + 1) [0] := by
    simp [Host.outerView, Word.ofNat_add_one]
  refine sim_reserve (k := p.staticCount) (by rw [Nat.zero_add]; exact hopens.reserve) ?_
  rw [Nat.zero_add, hinitial]
  refine .outer hopens.literal (outside_of_typed (typed_initialStore p) _) rfl
    (Instr.of_op_ne (by decide))
    (does_literal (fun _ => .inl rfl) ⟨fun _ => p.evaluate entry n, p.initialStore, rfl, rfl, ?_⟩)
  rw [hview]
  exact sim_createArguments h hopens n

end Start

end Simulation

end MiniJava
