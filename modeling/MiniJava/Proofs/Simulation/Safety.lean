import MiniJava.Proofs.Simulation.Behaviour
/-!
Programs that pass the checks do not go wrong. A run of their code stops with faults of the program
only, and every place that can be reached in the memory holds a word of its type: static fields,
variables of methods that have not returned, fields of objects and elements of arrays.
-/
namespace MiniJava.Machine

open Generate

/-- The faults that a program can have: all others are faults of its code. -/
def Fault.isExpected : Fault → Bool
  | nullPointer | indexOutOfRange _ _ | divisionByZero | negativeSize _ | heapExhausted |
      stackOverflow => true
  | _ => false

/-- The blocks that the next steps of a run create, with their addresses. -/
def blocksMade (items : Annotated) (code : Code) : Nat → State → List (Word × BlockKind)
  | 0, _ => []
  | n + 1, s =>
    match s.cp.index? code.size with
    | none => []
    | some a =>
      if (code.instr a).op = Op.halt.number then []
      else match execute code.size (code.instr a) s with
        | .ok _ s' => created items a s' ++ blocksMade items code n s'
        | .error _ _ => []

section

variable (blocks : List (Word × BlockKind)) (data : Array Word)

/-- The words that a place of a type may hold when some blocks have been created. -/
def Admits : Ty → Word → Prop
  | .boolean, w => w = 0 ∨ w = 1
  | .cls c, w => w = 0 ∨ (w, .object c) ∈ blocks
  | .array t, w => w = 0 ∨ (w, .array t) ∈ blocks
  | .int, _ | .void, _ | .null, _ | .error, _ => True

/-- From an address on, the memory holds words of given types. -/
def HoldsAll (a : Nat) (ts : List Ty) : Prop :=
  ∀ i t, ts[i]? = some t → ∃ w, data[a + i]? = some w ∧ Admits blocks t w

/-- A block of a kind whose two words of header stand at an address. -/
def BlockAt (classes : List ClassHead) (a : Nat) : BlockKind → Prop
  | .object name => ∃ c ∈ classes, c.name = name ∧ data[a]? = some (-1) ∧
      data[a + 1]? = some (Word.ofNat (c.fieldsOf false).length) ∧
      HoldsAll blocks data (a + 2) ((c.fieldsOf false).map (·.type.ty))
  | .array elem => ∃ n, data[a]? = some arrayClass ∧ data[a + 1]? = some (Word.ofNat n) ∧
      HoldsAll blocks data (a + 2) (List.replicate n elem)

/-- The activations from the one at the instruction `pc`, with the local base `lb`, to the outermost
one. A frame has the parameters below its base, then what the call saved, then the locals in
scope. -/
inductive Frames (items : Annotated) : Word → Word → Prop
  | outside {lb : Word} {a : Nat} : items.scopeAt a = some none → Frames items lb (Word.ofNat a)
  | within {a bottom base : Nat} {scope : Scope} {lb pc : Word} :
      items.scopeAt a = some (some scope) →
      base = bottom + scope.params.length →
        HoldsAll blocks data bottom (scope.params.map (·.type.ty)) →
      data[base + 1]? = some lb → data[base + 2]? = some (pc + 1) →
      HoldsAll blocks data (base + 3) (scope.vars.map (·.2.type.ty)) → Frames items lb pc →
      Frames items (Word.ofNat base) (Word.ofNat a)

end

/-- A state of the machine in which every place holds a word of its type, when some blocks have been
created. -/
structure Sound (p : Program) (items : Annotated) (blocks : List (Word × BlockKind))
    (s : State) : Prop where
  statics : ∀ (i : Nat) x, (staticFields p.heads)[i]? = some x → i < s.st.toInt →
    ∃ w, s.data[i]? = some w ∧ Admits blocks x.2.type.ty w
  heap : ∀ w kind, (w, kind) ∈ blocks → ∃ a, w = Word.ofNat (a + 2) ∧
    BlockAt blocks s.data p.heads a kind
  frames : Frames blocks s.data items s.lb s.cp

/-- A run that has not gone wrong: it has come to a sound state, or a fault of the program has
stopped it. -/
def Run.Safe (p : Program) (items : Annotated) (blocks : List (Word × BlockKind))
    (r : Run) : Prop :=
  match r.ending with
  | .outOfFuel | .halted => Sound p items blocks r.state
  | .stopped (.fault f) => f.isExpected = true
  | .stopped (.failedChannel _) | .stopped .crash => False

end MiniJava.Machine

namespace MiniJava.Simulation

open Generate Machine Semantics

variable {p : Program} {H : Host p} {W : World} {t : Ty} {w : Word} {v : View} {s : State}
  {σ : Store}

theorem admits_of_holds (h : W.Holds t w) : Admits W.log t w := by
  obtain ⟨v, hv, rfl⟩ := h
  cases t with
  | boolean =>
    obtain ⟨b, rfl⟩ := hv
    cases b with
    | false => exact .inl rfl
    | true => exact .inr rfl
  | cls c | array t =>
    rcases hv with rfl | ⟨l, n, rfl, hl⟩
    · exact .inl rfl
    · exact .inr (World.mem_log hl)
  | int | void | null | error => trivial

theorem shows_stack (h : v.Shows s) {i : Nat}
    (hw : v.stack[i]? = some w) : s.data[i]? = some w := by
  have hlt := (List.getElem?_eq_some_iff.mp hw).1
  have hi : i < s.data.size := by
    have hroom := h.room
    rw [h.size]
    omega
  rw [Array.getElem?_eq_getElem hi, h.stack_getElem hi hw]

theorem shows_heap (h : v.Shows s) {i : Nat}
    (hw : v.heap[i]? = some w) : s.data[v.heapTop + i]? = some w := by
  have hlt := (List.getElem?_eq_some_iff.mp hw).1
  have hi : v.heapTop + i < s.data.size := by
    have hroom := h.room
    rw [h.size, View.heapTop]
    omega
  rw [Array.getElem?_eq_getElem hi, h.heap_getElem hi hw]

theorem holdsAll_stack {α : Type} {f : α → Ty} {xs : List α} {below ws above : List Word}
    (h : v.Shows s) (hstack : v.stack = below ++ (ws ++ above))
    (hws : List.Forall₂ (fun x w => W.Holds (f x) w) xs ws) :
    HoldsAll W.log s.data below.length (xs.map f) := by
  intro i t hi
  rw [List.getElem?_map, Option.map_eq_some_iff] at hi
  obtain ⟨x, hx, rfl⟩ := hi
  obtain ⟨w, hw, hholds⟩ := forall₂_getElem? hws hx
  refine ⟨w, shows_stack h ?_, admits_of_holds hholds⟩
  have hlt := (List.getElem?_eq_some_iff.mp hw).1
  rw [hstack, List.getElem?_append_right (Nat.le_add_right _ _), Nat.add_sub_cancel_left,
    List.getElem?_append_left hlt, hw]

section Frames

variable {below args locals above statics : List Word} {ob lb back pc : Word} {a : Nat}
  {scope : Scope}

theorem frames_within (h : v.Shows s)
    (hstack : v.stack = below ++ (args ++ ([ob, lb, pc + 1] ++ (locals ++ above))))
    (hscope : H.items.scopeAt a = some (some scope))
    (hargs : List.Forall₂ (fun v w => W.Holds v.type.ty w) scope.params args)
    (hlocals : List.Forall₂ (fun x w => W.Holds x.2.type.ty w) scope.vars locals)
    (hframes : Frames W.log s.data H.items lb pc) :
    Frames W.log s.data H.items (Word.ofNat (below.length + args.length)) (Word.ofNat a) := by
  have hsaved (j : Nat) :
      v.stack[below.length + args.length + j]? = ([ob, lb, pc + 1] ++ (locals ++ above))[j]? := by
    rw [hstack, ← List.append_assoc, ← List.length_append,
      List.getElem?_append_right (Nat.le_add_right _ _), Nat.add_sub_cancel_left]
  have hlocals :
      HoldsAll W.log s.data (below.length + args.length + 3) (scope.vars.map (·.2.type.ty)) := by
    have hbelow : v.stack = below ++ args ++ [ob, lb, pc + 1] ++ (locals ++ above) := by
      rw [hstack]
      simp only [List.append_assoc]
    have hholds := holdsAll_stack h hbelow hlocals
    rwa [List.length_append, List.length_append] at hholds
  exact .within hscope (by rw [hargs.length_eq]) (holdsAll_stack h hstack hargs)
    (shows_stack h (hsaved 1))
    (shows_stack h (hsaved 2)) hlocals hframes

theorem frames_of_chain (h : v.Shows s) (hchain : Chain H W statics.length below lb back)
    (hstack : v.stack = statics ++ below ++ above) :
    ∃ pc, back = pc + 1 ∧ Frames W.log s.data H.items lb pc := by
  induction hchain generalizing above with
  | @entry lb a ha => exact ⟨Word.ofNat a, (Word.ofNat_add_one a).symm, .outside ha⟩
  | @call below args locals ops ob lb back scope a _ ha hargs hlocals ih =>
    have hcaller :
        v.stack = statics ++ below ++ (args ++ ([ob, lb, back] ++ (locals ++ (ops ++ above)))) := by
      rw [hstack]
      simp
    obtain ⟨pc, rfl, hframes⟩ := ih hcaller
    refine ⟨Word.ofNat a, (Word.ofNat_add_one a).symm, ?_⟩
    rw [← List.length_append]
    exact frames_within h hcaller ha hargs hlocals hframes

end Frames

/-- A block that has been created lies in the memory, with its header before its cells. -/
theorem exists_logged (h : v.Shows s) (hheap : v.heap = heapImage σ.world σ.heap)
    {kind : BlockKind} (hlog : (w, kind) ∈ σ.world.log) :
    ∃ b ∈ σ.heap, b.kind = kind ∧ ∃ a, w = Word.ofNat (a + 2) ∧ v.heapTop ≤ a ∧
      s.data[a]? = some kind.classWord ∧
      s.data[a + 1]? = some (Word.ofNat b.cells.length) ∧
      ∀ i u, b.cells[i]? = some u → s.data[a + 2 + i]? = some (σ.world.word u) := by
  obtain ⟨l, hl⟩ := List.mem_iff_getElem?.mp hlog
  rw [World.log, List.getElem?_mapIdx, Option.map_eq_some_iff] at hl
  obtain ⟨shape, hshape, heq⟩ := hl
  cases heq
  rw [Store.world, List.getElem?_map, Option.map_eq_some_iff] at hshape
  obtain ⟨b, hb, rfl⟩ := hshape
  obtain ⟨newer, older, haddress, himage, -⟩ := heapImage_block (W := σ.world) hb
  rw [← hheap] at himage
  have hword {i : Nat} {u : Word} (hu : (b.kind.classWord :: Word.ofNat b.cells.length ::
      (b.cells.map σ.world.word ++ older))[i]? = some u) :
      s.data[v.heapTop + newer.length + i]? = some u := by
    rw [Nat.add_assoc]
    refine shows_heap h ?_
    rw [himage, List.getElem?_append_right (Nat.le_add_right _ _), Nat.add_sub_cancel_left, hu]
  refine ⟨b, List.mem_of_getElem? hb, rfl, v.heapTop + newer.length, ?_, Nat.le_add_right _ _,
    hword (i := 0) rfl,
    hword rfl, fun i u hu => ?_⟩
  · have hroom := h.room
    have hlen := congrArg List.length himage
    simp only [List.length_append, List.length_cons, List.length_map] at hlen
    change Word.ofNat (World.address (σ.heap.map Block.shape) l) = _
    rw [haddress, blockAddress, View.heapTop, List.length_map]
    congr 1
    omega
  · have hlt : i < (b.cells.map σ.world.word).length := by
      rw [List.length_map]
      exact (List.getElem?_eq_some_iff.mp hu).1
    rw [Nat.add_assoc, Nat.add_comm 2]
    refine hword ?_
    rw [List.getElem?_cons_succ, List.getElem?_cons_succ, List.getElem?_append_left hlt,
      List.getElem?_map, hu]
    rfl

theorem blockAt_of_typed (h : v.Shows s) (hheap : v.heap = heapImage σ.world σ.heap)
    (htyped : ∀ b ∈ σ.heap, b.Typed p.heads σ.world) {kind : BlockKind}
    (hlog : (w, kind) ∈ σ.world.log) :
    ∃ a, w = Word.ofNat (a + 2) ∧ BlockAt σ.world.log s.data p.heads a kind := by
  obtain ⟨b, hb, rfl, a, hw, -, hclass, hsize, hcells⟩ := exists_logged h hheap hlog
  have hcell {i : Nat} {u : Val} {t : Ty} (hu : b.cells[i]? = some u) (ht : σ.world.Has t u) :
      ∃ w, s.data[a + 2 + i]? = some w ∧ Admits σ.world.log t w :=
    ⟨_, hcells i u hu, admits_of_holds ⟨u, ht, rfl⟩⟩
  refine ⟨a, hw, ?_⟩
  cases hkind : b.kind with
  | object name =>
    rw [hkind] at hclass
    have hcount := (htyped b hb).count name hkind
    rw [fieldCount?, Option.map_eq_some_iff] at hcount
    obtain ⟨c, hc, hcount⟩ := hcount
    rw [← hcount] at hsize
    refine ⟨c, List.mem_of_find?_eq_some hc, by simpa using List.find?_some hc, hclass, hsize,
      fun i t hi => ?_⟩
    rw [List.getElem?_map, Option.map_eq_some_iff] at hi
    obtain ⟨f, hf, rfl⟩ := hi
    have ht : cellTy? p.heads b.kind i = some f.type.ty := by
      rw [hkind]
      simp [cellTy?, hc, hf]
    obtain ⟨u, hu, hty⟩ := (htyped b hb).exists_cell hkind ht
    exact hcell hu hty
  | array elem =>
    rw [hkind] at hclass
    refine ⟨b.cells.length, hclass, hsize, fun i t hi => ?_⟩
    obtain ⟨hlt, rfl⟩ := List.getElem?_eq_some_iff.mp hi
    rw [List.length_replicate] at hlt
    obtain ⟨t, ht, hty⟩ := (htyped b hb).cells i _ (List.getElem?_eq_getElem hlt)
    rw [hkind] at ht
    cases ht
    rw [List.getElem_replicate]
    exact hcell (List.getElem?_eq_getElem hlt) hty

/-- Each place of a state that pictures an evaluation holds a word of its type. -/
theorem sound_of_good {c : Config} (h : H.Good c) : Sound p H.items c.2 c.1 := by
  obtain ⟨σ, v, hs, hlog, hstands⟩ := h
  rw [hlog]
  have hstatic {i : Nat} {x : String × Field} {u : Val} {above : List Word}
      (hu : σ.statics[i]? = some u)
      (hty : σ.world.Has x.2.type.ty u) (hstack : v.stack = σ.statics.map σ.world.word ++ above) :
      ∃ w, c.1.data[i]? = some w ∧ Admits σ.world.log x.2.type.ty w := by
    refine ⟨_, shows_stack hs ?_, admits_of_holds ⟨u, hty, rfl⟩⟩
    have hlt := (List.getElem?_eq_some_iff.mp hu).1
    rw [hstack, List.getElem?_append_left (by rw [List.length_map]; exact hlt), List.getElem?_map,
      hu]
    rfl
  cases hstands with
  | @within A env vars pc ops hA hscope _ =>
    refine ⟨fun i x hx _ => ?_, fun w kind hw => blockAt_of_typed hs rfl hA.store.blocks hw, ?_⟩
    · obtain ⟨u, hu, hty⟩ := forall₂_getElem? hA.store.statics hx
      exact hstatic hu hty (by simp only [Host.view, Activation.frame, List.append_assoc]; rfl)
    · have hstack : (H.view A σ env vars pc ops).stack = σ.statics.map σ.world.word ++
          (A.below ++ env.params.map σ.world.word ++ [A.ob, A.lb, A.back] ++
            (vars.map fun x => σ.world.word (env.locals x.1)) ++ ops) ++ [] := by
        simp [Host.view, Activation.frame]
      have hchain := hA.suspended hscope ops
      rw [← List.length_map (f := σ.world.word)] at hchain
      obtain ⟨pc', hpc, hframes⟩ := frames_of_chain hs hchain hstack
      obtain rfl : Word.ofNat pc = pc' := by
        rw [← Int64.add_sub_cancel (Word.ofNat pc) 1, Word.ofNat_add_one, hpc, Int64.add_sub_cancel]
      rw [List.length_map] at hframes
      rw [hs.lb, hs.cp]
      exact hframes
  | @outside pc ops hout hscope =>
    refine ⟨fun i x hx hi => ?_, fun w kind hw => blockAt_of_typed hs rfl hout.blocks hw, ?_⟩
    · have hlt : i < σ.statics.length := by
        by_cases hops : ops = []
        · have hroom := hs.room
          have hmem : memorySize = 65536 := rfl
          rw [hops] at hs hroom
          simp only [Host.outerView, List.append_nil, List.length_map] at hroom
          rw [hs.st, Word.toInt_ofNat (by simp [Host.outerView]; omega)] at hi
          simpa [Host.outerView] using hi
        · exact Nat.lt_of_lt_of_le (List.getElem?_eq_some_iff.mp hx).1 (hout.complete hops)
      exact hstatic (List.getElem?_eq_getElem hlt)
        (hout.statics i x _ hx (List.getElem?_eq_getElem hlt)) rfl
    · rw [hs.cp]
      exact .outside hscope

section Runs

variable {c c' : Config} {k n : Nat}

/-- The blocks that the steps of a path create are those that it logs. -/
theorem Host.Path.blocksMade (h : H.Path k c c') (n : Nat) :
    c.2 ++ Machine.blocksMade H.items H.code (k + n) c.1 = c'.2 ++ Machine.blocksMade H.items H.code
      n c'.1 := by
  induction h with
  | refl c => rw [Nat.zero_add]
  | @step k c₁ c₂ c₃ hgood hstep hpath ih =>
    cases hstep with
    | mk ha hop he =>
      rw [← ih, Nat.add_right_comm, Machine.blocksMade]
      simp only [ha, hop, if_false, he, List.append_assoc]

theorem Host.Path.good (h : H.Path k c c') (hgood : H.Good c') : H.Good c := by
  cases h with
  | refl => exact hgood
  | step hgood _ _ => exact hgood

theorem blocksMade_of_halts (h : H.Halts s) (n : Nat) : blocksMade H.items H.code n s = [] := by
  obtain ⟨a, ha, hop⟩ := h
  cases n with
  | zero => rfl
  | succ n => simp only [blocksMade, ha, hop, if_true]

/-- The run comes to an end that is expected. -/
def Host.Stops (H : Host p) (s : State) : Prop :=
  CallsNull H.code s ∨ (∃ f out, f.isExpected = true ∧ Fails H.code s f out) ∨ H.Halts s

variable {source : Bytes} {entry : MethodKey} {sink : Sink}

/-- A run goes on from good state to good state until it stops. -/
theorem exists_path (h : p.IsBuilt source entry H.code) (hopens : Opens H p.staticCount entry)
    (houtput : H.output = { sink }) (n : Nat) :
    ∃ k c, H.Path k (State.initial H.input sink, []) c ∧ H.Good c ∧ (n ≤ k ∨ H.Stops c.1) := by
  rcases sim_program h hopens (n + 1) _ (shows_initial houtput) with ⟨k, c, hpath, hgood, hcause⟩ |
    hmeets
  · refine ⟨k, c, hpath, hgood, .inr ?_⟩
    rcases hcause with hnull | ⟨f, out, rfl | rfl, hfails⟩
    · exact .inl hnull
    · exact .inr (.inl ⟨_, out, rfl, hfails⟩)
    · exact .inr (.inl ⟨_, out, rfl, hfails⟩)
  · cases hx : p.evaluate entry (n + 1) with
    | ok u σ =>
      rw [hx] at hmeets
      obtain ⟨k, s, v, hpath, hs, hσ, rfl⟩ := hmeets
      refine ⟨k, _, hpath, ⟨σ, _, hs, rfl, .outside (outside_of_typed hσ []) ?_⟩,
        .inr (.inr (.inr ?_))⟩
      · simp [Annotated.scopeAt, hopens.halt]
      · exact halts_of_view hopens hs
    | error e σ =>
      rw [hx] at hmeets
      cases e with
      | stuck => cases hmeets
      | fault f =>
        obtain ⟨k, c, hpath, hgood, hfails⟩ := hmeets
        refine ⟨k, c, hpath, hgood, .inr (.inr (.inl ⟨_, _, ?_, hfails⟩))⟩
        cases f <;> rfl
      | outOfFuel =>
        obtain ⟨k, c, hk, hpath, -⟩ := hmeets
        -- The last state of the path need not be good, but those before it are.
        obtain ⟨c₁, hpath₁, hpath₂⟩ := hpath.split (Nat.le_of_succ_le hk)
        obtain ⟨m, hm⟩ := Nat.exists_eq_add_of_lt hk
        rw [show k - n = m + 1 by omega] at hpath₂
        cases hpath₂ with
        | step hgood _ _ => exact ⟨n, c₁, hpath₁, hgood, .inl (Nat.le_refl n)⟩

end Runs

end MiniJava.Simulation

namespace MiniJava

open Generate Machine Simulation

/-- The program `class Node { boolean last; Node next; } class A { static Node head; public static
void main(String[] a) { Node[] all = new Node[9]; int i = 0; while (i < 9) { Node node = new Node();
node.last = head == null; node.next = head; head = node; all[i] = node; i = i + 1; } } }`. -/
def linksNodes : Bytes :=
  ("class Node \x7b boolean last; Node next; \x7d " ++
    "class A \x7b static Node head; public static void main(String[] a) \x7b " ++
      "Node[] all = new Node[9]; int i = 0; while (i < 9) \x7b Node node = new Node(); " ++
    "node.last = head == null; node.next = head; head = node; " ++
      "all[i] = node; i = i + 1; \x7d \x7d \x7d").toUTF8.toList

/-- As long as no method is called on the null reference, the code of a program does not go
wrong. -/
theorem run_safe {p : Program} {source : Bytes} {entry : MethodKey} {code : Code}
    (h : p.IsBuilt source entry code) (hcode : code.size < 2 ^ 63)
    (hfields : ∀ c ∈ p.heads, c.fields.length < 2 ^ 63) (input : Option Input) (sink : Sink)
    (hsink : ∀ size failure, sink ≠ .limited size failure) (n : Nat)
    (hnull : ∀ k < n, (run code k 0 (State.initial input sink)).ending = .outOfFuel →
      ¬ CallsNull code (run code k 0 (State.initial input sink)).state) :
    ∃ items, p.annotated entry = .ok items ∧
      (run code n 0 (State.initial input sink)).Safe p items
        (blocksMade items code n (State.initial input sink)) := by
  obtain ⟨H, rfl, rfl, houtput, hitems, hpreamble⟩ := exists_host h hcode hfields input sink hsink
  obtain ⟨k, c, hpath, hgood, hend⟩ := exists_path h (opens_of_preamble hpreamble) houtput n
  refine ⟨H.items, hitems, ?_⟩
  by_cases hk : n ≤ k
  · obtain ⟨c₁, hpath₁, hpath₂⟩ := hpath.split hk
    have hblocks := hpath₁.blocksMade 0
    simp only [blocksMade, List.append_nil, List.nil_append, Nat.add_zero] at hblocks
    rw [hpath₁.outOfFuel, hblocks]
    exact sound_of_good (hpath₂.good hgood)
  · obtain ⟨m, rfl⟩ := Nat.exists_eq_add_of_lt (Nat.lt_of_not_le hk)
    rcases hend.resolve_left hk with hcalls | ⟨f, out, hf, hfails⟩ | hhalts
    · have hrun := hpath.outOfFuel
      exact absurd hcalls (by simpa [hrun] using hnull k (by omega))
    · have hstop := (hpath.fails hfails).1
      rw [run_eq_of_le (by omega : k + 1 ≤ k + m + 1) (by rw [hstop]; nofun), Run.Safe, hstop]
      exact hf
    · obtain ⟨hstop, hstate⟩ := hpath.halts hhalts
      have hblocks := hpath.blocksMade (m + 1)
      rw [blocksMade_of_halts hhalts, List.append_nil, List.nil_append] at hblocks
      rw [run_eq_of_le (by omega : k + 1 ≤ k + m + 1) (by rw [hstop]; nofun), Run.Safe, hstop,
        Nat.add_assoc, hblocks, hstate]
      exact sound_of_good hgood

theorem linksNodes_safe :
    ∃ (p : Program) (entry : MethodKey) (code : Code), p.IsBuilt linksNodes entry code ∧
      ∀ n, ∃ items, p.annotated entry = .ok items ∧
        (run code n 0 (State.initial none .accept)).Safe p items
          (blocksMade items code n (State.initial none .accept)) := by
  have hbuild :
      (Program.build? linksNodes).map (fun x => x.1.heads.all (·.fields.length < 2 ^ 63) &&
      x.2.2.size < 2 ^ 63 && x.2.2.toList.all (·.op ≠ Op.calli.number)) = some true := by
      decide +kernel
  obtain ⟨⟨p, entry, code⟩, hp, hx⟩ := Option.map_eq_some_iff.mp hbuild
  simp only [Bool.and_eq_true, List.all_eq_true, decide_eq_true_eq] at hx
  obtain ⟨⟨hfields, hsize⟩, hcalls⟩ := hx
  have hbuilt := Program.isBuilt_of_build? hp
  refine ⟨p, entry, code, hbuilt, fun n => run_safe hbuilt hsize hfields none .accept nofun n ?_⟩
  rintro k - - ⟨a, -, hop, -⟩
  exact hcalls (code.instr a) (Array.getElem_mem_toList _) hop

end MiniJava
