import MiniJava.Generate.Item
import MiniJava.Proofs.Machine.View
/-!
What each kind of generated instruction does to the lists of a view.
-/
namespace MiniJava

theorem Op.ofNumber?_number (op : Op) : ofNumber? op.number = some op := by
  cases op <;> rfl

theorem Instr.of_op_ne {op other : Op} {n d : Word} {r : Reg}
    (h : op ≠ other) : (of op n r d).op ≠ other.number := by
  intro hn
  have hsome := Op.ofNumber?_number op
  rw [show op.number = other.number from hn, Op.ofNumber?_number] at hsome
  exact h (Option.some.inj hsome).symm

theorem Reg.ofNumber?_number (r : Reg) : ofNumber? r.number = some r := by
  cases r <;> rfl

namespace Machine

open Generate

variable {size : Nat} {v : View} {F : Fault → Output → Prop} {Q : Unit → View → Prop}

/-- An instruction that sets the code pointer to what `effect` gives. -/
theorem does_execute {i : Instr}
    (h : Does (effect size i) v (fun target v' => Q () { v' with cp := target }) F) :
    Does (execute size i) v Q F :=
  .bind fun s hs =>
    (h s hs).imp (fun ⟨a, s', v', ha, hs', hQ⟩ => ⟨a, s', v', ha, hs', fun u hu => .inl
    ⟨(), { u with cp := a }, { v' with cp := a }, rfl,
      ⟨hu.memory, hu.st, hu.ht, hu.lb, hu.ob, rfl, hu.input, hu.output⟩, hQ⟩⟩) id

theorem does_next {R : Word → View → Prop} (h : R (v.cp + 1) v) : Does next v R F :=
  does_look (fun _ hs => congrArg (· + 1) hs.cp) h

/-- The value of a register from which generated instructions count. -/
def View.base (v : View) : Reg → Word
  | .lb => v.lb
  | .ob => v.ob
  | _ => 0

theorem does_address {op : Op} {n d : Word} {r : Reg} (hr : r ∈ [Reg.cb, Reg.sb, Reg.lb, Reg.ob])
    {R : Word → View → Prop} (h : R (v.base r + d) v) :
    Does (address size (.of op n r d)) v R F := by
  refine does_look (fun s hs => ?_) h
  simp only [Instr.of, Reg.ofNumber?_number]
  simp only [List.mem_cons, List.not_mem_nil, or_false] at hr
  rcases hr with rfl | rfl | rfl | rfl
  · rfl
  · rfl
  · exact congrArg (· + d) hs.lb
  · exact congrArg (· + d) hs.ob

theorem does_literal {w : Word}
    (hover : v.stack.length + v.heap.length = memorySize → F .stackOverflow v.output)
    (h : Q () { v with stack := v.stack ++ [w], cp := v.cp + 1 }) :
    Does (execute size (.of .loadl 0 .zr w)) v Q F := by
  refine does_execute ?_
  change Does (do push w; next) v _ F
  exact .bind (does_push (does_next h) hover)

theorem does_this (hover : v.stack.length + v.heap.length = memorySize → F .stackOverflow v.output)
    (h : Q () { v with stack := v.stack ++ [v.ob], cp := v.cp + 1 }) :
    Does (execute size (.of .loada 0 .ob 0)) v Q F := by
  refine does_execute ?_
  change Does (do push (← address size (.of .loada 0 .ob 0)); next) v _ F
  refine .bind (does_address (by simp) (.bind (does_push (does_next ?_) hover)))
  simpa [View.base] using h

theorem does_loadStack {r : Reg} {d : Word} {i : Nat} {w : Word}
    (hr : r ∈ [Reg.cb, Reg.sb, Reg.lb, Reg.ob]) (hi : v.base r + d = Word.ofNat i)
    (hw : v.stack[i]? = some w)
    (hover : v.stack.length + v.heap.length = memorySize → F .stackOverflow v.output)
    (h : Q () { v with stack := v.stack ++ [w], cp := v.cp + 1 }) :
    Does (execute size (.of .load 0 r d)) v Q F := by
  refine does_execute ?_
  change Does (do push (← load (← address size (.of .load 0 r d))); next) v _ F
  exact .bind
    (does_address hr (.bind (does_load_stack hi hw (.bind (does_push (does_next h) hover)))))

theorem does_loadHeap {r : Reg} {d : Word} {i : Nat} {w : Word}
    (hr : r ∈ [Reg.cb, Reg.sb, Reg.lb, Reg.ob]) (hi : v.base r + d = Word.ofNat (v.heapTop + i))
    (hw : v.heap[i]? = some w)
    (hover : v.stack.length + v.heap.length = memorySize → F .stackOverflow v.output)
    (h : Q () { v with stack := v.stack ++ [w], cp := v.cp + 1 }) :
    Does (execute size (.of .load 0 r d)) v Q F := by
  refine does_execute ?_
  change Does (do push (← load (← address size (.of .load 0 r d))); next) v _ F
  exact .bind
    (does_address hr (.bind (does_load_heap hi hw (.bind (does_push (does_next h) hover)))))

theorem does_storeStack {r : Reg} {d : Word} {i : Nat} {w : Word} {rest : List Word}
    (hr : r ∈ [Reg.cb, Reg.sb, Reg.lb, Reg.ob]) (hstack : v.stack = rest ++ [w])
    (hi : v.base r + d = Word.ofNat i) (hlt : i < rest.length)
    (h : Q () { v with stack := rest.set i w, cp := v.cp + 1 }) :
    Does (execute size (.of .store 0 r d)) v Q F := by
  refine does_execute ?_
  change Does (do let w ← pop; store (← address size (.of .store 0 r d)) w; next) v _ F
  refine .bind (does_pop hstack (.bind (does_address hr ?_)))
  exact .bind (does_store_stack hi hlt (does_next h))

theorem does_storeHeap {r : Reg} {d : Word} {i : Nat} {w : Word} {rest : List Word}
    (hr : r ∈ [Reg.cb, Reg.sb, Reg.lb, Reg.ob]) (hstack : v.stack = rest ++ [w])
    (hi : v.base r + d = Word.ofNat (v.heapTop + i)) (hlt : i < v.heap.length)
    (h : Q () { v with stack := rest, heap := v.heap.set i w, cp := v.cp + 1 }) :
    Does (execute size (.of .store 0 r d)) v Q F := by
  refine does_execute ?_
  change Does (do let w ← pop; store (← address size (.of .store 0 r d)) w; next) v _ F
  refine .bind (does_pop hstack (.bind (does_address hr ?_)))
  exact .bind (does_store_heap hi hlt (does_next h))

theorem does_jump {target : Word} (h : Q () { v with cp := target }) :
    Does (execute size (.of .jump 0 .cb target)) v Q F := by
  refine does_execute ?_
  change Does (address size (.of .jump 0 .cb target)) v _ F
  exact does_address (by simp) (by simpa [View.base] using h)

theorem does_jumpIf {n target w : Word} {rest : List Word} (hstack : v.stack = rest ++ [w])
    (h : Q () { v with stack := rest, cp := if w = n then target else v.cp + 1 }) :
    Does (execute size (.of .jumpif n .cb target)) v Q F := by
  refine does_execute ?_
  change Does (do if (← pop) = n then address size (.of .jumpif n .cb target) else next) v _ F
  refine .bind (does_pop hstack ?_)
  split
  · rename_i hw
    refine does_address (by simp) ?_
    simpa [View.base, hw] using h
  · rename_i hw
    refine does_next ?_
    simpa [hw] using h

theorem does_reserve
    (hover : v.stack.length + v.heap.length = memorySize → F .stackOverflow v.output)
    (h : Q () { v with stack := v.stack ++ [0], cp := v.cp + 1 }) :
    Does (execute size (.of .push 0 .zr (Word.ofNat 1))) v Q F := by
  refine does_execute ?_
  change Does (do pushZeros (Word.ofNat 1).toInt.toNat; next) v _ F
  exact .bind (.bind (does_push (.pure (does_next h)) hover))

theorem does_dropWords {kept dropped : List Word} (hstack : v.stack = kept ++ dropped)
    (h : Q () { v with stack := kept, cp := v.cp + 1 }) :
    Does (execute size (.of .pop 0 .zr (Word.ofNat dropped.length))) v Q F := by
  refine does_execute ?_
  change Does (do drop (Word.ofNat dropped.length); next) v _ F
  exact .bind (does_drop hstack rfl (does_next h))

theorem does_return {ob lb back : Word} {bottom args rest results : List Word}
    (hstack : v.stack = bottom ++ args ++ ob :: lb :: back :: (rest ++ results))
    (hlb : v.lb = Word.ofNat (bottom ++ args).length) (hresults : results.length ≤ 1)
    (h : Q () { v with stack := bottom ++ results, lb, ob, cp := back }) :
    Does (execute size (.of .ret (Word.ofNat results.length) .zr (Word.ofNat args.length))) v Q
      F := by
  refine does_execute ?_
  change Does (leaveFrame (Word.ofNat results.length) (Word.ofNat args.length)) v _ F
  exact does_leaveFrame hstack hlb rfl rfl hresults h

theorem does_callCode {target : Word}
    (hover : memorySize < v.stack.length + 3 + v.heap.length → F .stackOverflow v.output)
    (h : Q () { v with
      stack := v.stack ++ [v.ob, v.lb, v.cp + 1], lb := Word.ofNat v.stack.length, cp := target }) :
    Does (execute size (.of .call 0 .cb target)) v Q F := by
  refine does_execute ?_
  change Does (do call (← address size (.of .call 0 .cb target)) (← look State.ob)) v _ F
  refine .bind (does_address (by simp) (.bind (does_look (fun s hs => hs.ob) (does_call hover ?_))))
  simpa [View.base] using h

theorem does_callCodeOn {target object : Word} {rest : List Word}
    (hstack : v.stack = rest ++ [object])
    (hover : memorySize < rest.length + 3 + v.heap.length → F .stackOverflow v.output)
    (h : Q () { v with
      stack := rest ++ [v.ob, v.lb, v.cp + 1], lb := Word.ofNat rest.length, ob := object,
      cp := target }) :
    Does (execute size (.of .calli 0 .cb target)) v Q F := by
  refine does_execute ?_
  change Does (do let object ← pop; call (← address size (.of .calli 0 .cb target)) object) v _ F
  refine .bind (does_pop hstack (.bind (does_address (by simp) (does_call hover ?_))))
  simpa [View.base] using h

section Primitives

theorem does_prim {p : Prim}
    (h : Does (primitive p) v (fun _ v' => Q () { v' with cp := v'.cp + 1 }) F) :
    Does (execute size (.prim p)) v Q F := by
  refine does_execute ?_
  have heffect : effect size (.prim p) = (do primitive p; next) := by
    cases p <;> rfl
  rw [heffect]
  refine .bind fun s hs =>
    (h s hs).imp (fun ⟨a, s', v', ha, hs', hQ⟩ => ⟨a, s', v', ha, hs', ?_⟩) id
  exact does_next hQ

variable {a i w : Word} {rest : List Word}

/-- Words that are popped make room for others. -/
theorem not_full_of_pop {popped : List Word} (hstack : v.stack = rest ++ popped)
    (hpopped : popped ≠ []) (hroom : v.stack.length + v.heap.length ≤ memorySize) :
    rest.length + v.heap.length ≠ memorySize := by
  have hlen : v.stack.length = rest.length + popped.length := by simp [hstack]
  have hpos := List.length_pos_iff.mpr hpopped
  omega

theorem does_mapTop {f : Word → Word} (hstack : v.stack = rest ++ [w])
    (h : Q () { v with stack := rest ++ [f w] }) : Does (mapTop f) v Q F :=
  .of_room fun hroom => .bind (does_pop hstack (does_push h fun hfull =>
    (not_full_of_pop hstack (List.cons_ne_nil _ _) hroom hfull).elim))

theorem does_pop2 {R : Word × Word → View → Prop} (hstack : v.stack = rest ++ [a, w])
    (h : R (a, w) { v with stack := rest }) : Does pop2 v R F := by
  have hstack' : v.stack = (rest ++ [a]) ++ [w] := by simp [hstack]
  exact .bind (does_pop hstack' (.bind (does_pop rfl (.pure h))))

theorem does_pop3 {R : Word × Word × Word → View → Prop} (hstack : v.stack = rest ++ [a, i, w])
    (h : R (a, i, w) { v with stack := rest }) : Does pop3 v R F := by
  have hstack' : v.stack = (rest ++ [a] ++ [i]) ++ [w] := by simp [hstack]
  exact .bind (does_pop hstack' (.bind (does_pop rfl (.bind (does_pop rfl (.pure h))))))

theorem does_binaryTop {p : Prim} (hstack : v.stack = rest ++ [a, w])
    (hok : ∀ c, binary p a w = .ok c → Q () { v with stack := rest ++ [c] })
    (herror : ∀ f, binary p a w = .error f → F f v.output) : Does (binaryTop p) v Q F := by
  refine .of_room fun hroom => .bind (does_pop2 hstack ?_)
  dsimp only
  split
  · rename_i c hc
    exact does_push (hok c hc) fun hfull =>
      (not_full_of_pop hstack (List.cons_ne_nil _ _) hroom hfull).elim
  · rename_i f hf
    exact does_fault (herror f hf)

theorem does_println (hstack : v.stack = rest ++ [w])
    (hsink : ∀ n, v.output.refusal? n = none)
    (h : Q () { v with stack := rest, output := v.output.append (decimal w ++ newline) }) :
    Does (primitive .putintnl) v Q F :=
  .bind (does_pop hstack (does_write (hsink _) h))

theorem does_create {cls size : Word} (hrest : v.stack ≠ [])
    (hneg : size.toInt < 0 → F (.negativeSize size) v.output)
    (hfull : memorySize ≤ v.stack.length + size.toInt.toNat + 2 + v.heap.length →
      F .heapExhausted v.output)
    (h : ∀ n : Nat, size = Word.ofNat n → size.toInt = n →
      Q () { v with
        stack := v.stack ++ [Word.ofNat (v.heapTop - n)],
        heap := cls :: size :: (List.replicate n 0 ++ v.heap) }) :
    Does (do push (← allocate cls size)) v Q F :=
  .bind (does_allocate hrest hneg hfull fun n hn hint hroom =>
    does_push (h n hn hint) fun hover => by
      simp at hover
      omega)

end Primitives

end Machine

end MiniJava
