import MiniJava.Generate.Emit
import MiniJava.Proofs.Sequence
/-!
Code that is written and patched is the code that is made for known addresses: every patch meets
the instruction that was written for it, and none lies outside of the code.
-/
namespace MiniJava.Generate

/-- The method that an item calls. -/
def Item.callee? : Item → Option MethodKey
  | call target | callOn target => some target
  | _ => none

/-- The instruction as it is first written, without the address of a method. -/
def Item.written : Item → Instr
  | instr i => i
  | call _ => .of .call 0 .cb Emit.unresolved
  | callOn _ => .of .calli 0 .cb Emit.unresolved
  | create (.object _) => .prim .newobj
  | create (.array _) => .prim .newarr

/-- The calls among items that start at an address. -/
def pending : Nat → List Item → List (Nat × MethodKey)
  | _, [] => []
  | a, i :: is => (i.callee?.map (a, ·)).toList ++ pending (a + 1) is

theorem pending_append (a : Nat) (is js : List Item) :
    pending a (is ++ js) = pending a is ++ pending (a + is.length) js := by
  induction is generalizing a with
  | nil => rfl
  | cons i is ih =>
    rw [List.cons_append, pending, ih, pending, List.append_assoc, List.length_cons,
      Nat.add_assoc, Nat.add_comm 1]

namespace Emission

variable (s : Emission)

/-- What is written when items follow. -/
def after (items : List Item) : Emission :=
  ⟨s.code ++ (items.map Item.written).toArray, s.calls ++ (pending s.code.size items).toArray⟩

@[simp] theorem size_after (items : List Item) :
    (s.after items).code.size = s.code.size + items.length := by
  simp [after]

@[simp] theorem after_after (is js : List Item) : (s.after is).after js = s.after (is ++ js) := by
  simp [after, pending_append]

@[simp] theorem after_nil : s.after [] = s := by
  simp [after, pending]

end Emission

namespace Emit

variable (s : Emission)

@[simp] theorem run_instr (i : Instr) :
    (instr i).run s = .ok (s.code.size, s.after [.instr i]) := by
  simp [instr, StateT.run, Emission.after, pending, Item.written, Item.callee?]

@[simp] theorem run_nextAddress : nextAddress.run s = .ok (s.code.size, s) := rfl

@[simp] theorem run_callOf (op : Op) (target : MethodKey) :
    (callOf op target).run s =
      .ok ((), ⟨s.code.push (.of op 0 .cb unresolved), s.calls.push (s.code.size, target)⟩) := rfl

@[simp] theorem run_item (i : Item) : (item i).run s = .ok ((), s.after [i]) := by
  cases i with
  | instr i => simp [item]
  | call target | callOn target =>
    simp [item, Emission.after, pending, Item.callee?, Item.written]
  | create kind =>
    cases kind <;> simp [item, Emission.after, pending, Item.callee?, Item.written]

@[simp] theorem run_items (is : List Item) : (items is).run s = .ok ((), s.after is) := by
  induction is generalizing s with
  | nil => rw [Emission.after_nil]; rfl
  | cons i is ih => simp [items, ih]

theorem run_patch (before : Code) (i : Instr) (rest : List Instr)
    (calls : Array (Nat × MethodKey)) (target : Nat) :
    (patch before.size target).run ⟨before ++ (i :: rest).toArray, calls⟩ =
      .ok ((), ⟨before ++ ({ i with d := Word.ofNat target } :: rest).toArray, calls⟩) := by
  have hlt : before.size < (before ++ (i :: rest).toArray).size := by simp
  have hget : (before ++ (i :: rest).toArray)[before.size] = i := by simp
  have hset : (before ++ (i :: rest).toArray).set before.size { i with d := Word.ofNat target } =
      before ++ ({ i with d := Word.ofNat target } :: rest).toArray := by
    apply Array.ext'
    simp
  have hpatch : Code.patch (before ++ (i :: rest).toArray) before.size (Word.ofNat target) =
      .ok (before ++ ({ i with d := Word.ofNat target } :: rest).toArray) := by
    rw [Code.patch, dif_pos ⟨Int.natCast_nonneg _, hlt⟩, ← hset]
    simp only [Int.toNat_natCast, hget]
  simp only [patch, StateT.run, hpatch]

/-- An instruction among those that were written gets its target. -/
theorem run_patch_after (is js : List Item) {a : Nat} {i : Instr}
    (h : a = s.code.size + is.length) (target : Nat) :
    (patch a target).run (s.after (is ++ .instr i :: js)) =
      .ok ((), s.after (is ++ .instr { i with d := Word.ofNat target } :: js)) := by
  have hpatch := run_patch (s.after is).code i (js.map Item.written)
    (s.after (is ++ .instr i :: js)).calls target
  simpa [h, Emission.after, pending_append, pending, Item.callee?, Item.written] using hpatch

theorem run_patch_jump (is js : List Item) {a : Nat} (h : a = s.code.size + is.length)
    (target : Nat) :
    (patch a target).run (s.after (is ++ .instr (.of .jump 0 .cb unresolved) :: js)) =
      .ok ((), s.after (is ++ .jump target :: js)) := run_patch_after s is js h target

theorem run_patch_jumpIf (is js : List Item) {a : Nat} {v : Word}
    (h : a = s.code.size + is.length) (target : Nat) :
    (patch a target).run (s.after (is ++ .instr (.of .jumpif v .cb unresolved) :: js)) =
      .ok ((), s.after (is ++ .jumpIf v target :: js)) := run_patch_after s is js h target

section

variable (classes : ClassLayouts) (frame : Frame)

mutual

theorem run_expr (e : Expr) (s : Emission) :
    (expr classes frame e).run s =
      (Generate.expr classes frame s.code.size e) >>= fun is => .ok ((), s.after is) := by
  cases e with
  | unary op sp e => simp [expr, Generate.expr, run_expr e]
  | binary op sp l r =>
    cases hop : strategy op with
    | prim p => simp [expr, Generate.expr, hop, run_expr l, run_expr r]
    | shortCircuit decided =>
      simp only [expr, Generate.expr, hop, StateT.run_bind, run_expr l, run_expr r, run_instr,
        run_nextAddress, run_item, Except.ok_bind, bind_assoc, bind_pure_comp, bind_map_left,
        Emission.size_after, Emission.after_after, List.length_cons, List.length_nil,
        Nat.zero_add, List.append_assoc, List.cons_append, List.nil_append]
      refine bind_congr fun left => bind_congr fun right => ?_
      have hexit : s.code.size + left.length + 1 + right.length + 1 =
          s.code.size + left.length + right.length + 2 := by omega
      -- The jump to the end is patched when the jump to the exit has its target.
      have hend := run_patch_jump s
        (left ++ .jumpIf decided (s.code.size + left.length + right.length + 2) :: right)
        [.literal decided] (a := s.code.size + left.length + 1 + right.length) (by simp; omega)
        (s.code.size + left.length + right.length + 3)
      rw [run_patch_jumpIf s _ _ rfl, hexit, Except.ok_bind]
      simpa [Nat.add_assoc, Nat.add_left_comm] using hend
  | ref r => simp [expr, Generate.expr]
  | index r i sp => simp [expr, Generate.expr, run_expr i]
  | call r args sp => simp [expr, Generate.expr, run_exprs args]
  | literal l sp => simp [expr, Generate.expr]
  | newObject c sp => simp [expr, Generate.expr]
  | newArray elem size sp => simp [expr, Generate.expr, run_expr size]

theorem run_exprs (es : List Expr) (s : Emission) :
    (exprs classes frame es).run s =
      (Generate.exprs classes frame s.code.size es) >>= fun is => .ok ((), s.after is) := by
  cases es with
  | nil => simp [exprs, Generate.exprs]
  | cons e es => simp [exprs, Generate.exprs, run_expr e, run_exprs es]

end

theorem run_assign (value : Expr) (r : Ref) (s : Emission) :
    (assign classes frame value r).run s =
      (Generate.assign classes frame s.code.size value r) >>= fun is => .ok ((), s.after is) := by
  cases r with
  | this => rfl
  | name id d =>
    rcases d with _ | d
    · rfl
    · cases d with
      | field owner f => simp [assign, Generate.assign, run_expr]
      | param i v => simp [assign, Generate.assign, run_expr]
      | localVar i v => simp [assign, Generate.assign, run_expr]
      | _ => rfl
  | member q id d =>
    rcases d with _ | d
    · cases q <;> rfl
    · cases d with
      | field owner f =>
        cases q with
        | this => simp [assign, Generate.assign, run_expr]
        | _ =>
          simp only [assign, Generate.assign, StateT.run_bind]
          cases placed (classes.field? _ _) with
          | error fault => rfl
          | ok place => cases hstatic : place.isStatic <;> simp [run_expr, hstatic]
      | _ => cases q <;> rfl

end

section

variable (classes : ClassLayouts)

mutual

theorem run_stmt (frame : Frame) (t : Stmt) (s : Emission) :
    (stmt classes frame t).run s =
      (Generate.stmt classes s.code.size frame t) >>= fun x => .ok (x.2, s.after x.1) := by
  cases t with
  | block body sp => simp [stmt, Generate.stmt, run_stmts frame body]
  | declare v init sp => simp [stmt, Generate.stmt, run_expr]
  | assign r value sp => simp [stmt, Generate.stmt, run_assign]
  | assignIndex r i value sp => simp [stmt, Generate.stmt, run_expr]
  | call r args sp => simp [stmt, Generate.stmt, run_exprs]
  | ret value sp => cases value <;> simp [stmt, Generate.stmt, run_expr]
  | ifThen cond t sp =>
    simp only [stmt, Generate.stmt, StateT.run_bind, StateT.run_map, run_expr, run_stmt frame t,
      run_instr, run_nextAddress, Except.ok_bind, bind_assoc, bind_pure_comp, bind_map_left,
      Emission.size_after, Emission.after_after, List.length_cons, List.length_nil,
      Nat.zero_add, List.append_assoc, List.cons_append, List.nil_append]
    refine bind_congr fun test => bind_congr fun body => ?_
    rw [run_patch_jumpIf s _ _ rfl, Except.map_ok]
  | ifElse cond t e sp =>
    simp only [stmt, Generate.stmt, StateT.run_bind, StateT.run_map, run_expr, run_stmt frame t,
      run_stmt _ e, run_instr, run_nextAddress, Except.ok_bind, bind_assoc, bind_pure_comp,
      bind_map_left, Emission.size_after, Emission.after_after, List.length_cons,
      List.length_nil, Nat.zero_add, List.append_assoc, List.cons_append, List.nil_append]
    refine bind_congr fun test => bind_congr fun body => ?_
    have helse : s.code.size + test.length + 1 + body.1.length + 1 =
        s.code.size + test.length + body.1.length + 2 := by omega
    have hstart : s.code.size + (test.length + (body.1.length + 1 + 1)) =
        s.code.size + test.length + body.1.length + 2 := by omega
    rw [run_patch_jumpIf s _ _ rfl, helse, Except.ok_bind]
    simp only [Emission.size_after, Emission.after_after, List.length_append, List.length_cons,
      List.length_nil, Nat.zero_add, hstart, List.append_assoc, List.cons_append,
      List.nil_append]
    refine bind_congr fun other => ?_
    have hend := run_patch_jump s
      (test ++ .jumpIf 0 (s.code.size + test.length + body.1.length + 2) :: body.1) other.1
      (a := s.code.size + test.length + 1 + body.1.length) (by simp; omega)
      (s.code.size + test.length + body.1.length + 2 + other.1.length)
    rw [List.append_assoc, List.cons_append, List.append_assoc, List.cons_append] at hend
    rw [hend, Except.map_ok]
  | loop cond body sp =>
    simp only [stmt, Generate.stmt, StateT.run_bind, StateT.run_map, run_expr,
      run_stmt frame body, run_instr, run_nextAddress, run_item, Except.ok_bind, Except.map_ok,
      bind_assoc, bind_pure_comp, bind_map_left, Emission.size_after, Emission.after_after,
      List.length_cons, List.length_nil, Nat.zero_add, List.append_assoc, List.cons_append,
      List.nil_append]
    refine bind_congr fun body => ?_
    have htest := run_patch_jump s [] body.1 (a := s.code.size) rfl
      (s.code.size + 1 + body.1.length)
    rw [List.nil_append, List.nil_append] at htest
    rw [htest, Except.ok_bind]
    simp [Nat.add_assoc, Nat.add_comm 1]

theorem run_stmts (frame : Frame) (ts : List Stmt) (s : Emission) :
    (stmts classes frame ts).run s =
      (Generate.stmts classes s.code.size frame ts) >>= fun x => .ok (x.2, s.after x.1) := by
  cases ts with
  | nil => simp [stmts, Generate.stmts]
  | cons t ts => simp [stmts, Generate.stmts, run_stmt frame t, run_stmts _ ts]

end

end

theorem run_methods (classes : ClassLayouts) (ms : List (String × Method)) (s : Emission) :
    (methods classes ms).run s = (methodCodes classes s.code.size ms) >>= fun codes =>
      .ok (codes.map (fun m => (m.key, m.address)), s.after (codes.flatMap (·.items))) := by
  induction ms generalizing s with
  | nil => simp [methods, methodCodes]
  | cons m ms ih => simp [methods, methodCodes, methodCode, run_stmts, ih, Nat.add_assoc]

/-- Patching the calls among items gives the items with the addresses of their methods. -/
theorem run_patchCalls (addresses : List (MethodKey × Nat)) (items : List Item) (before : Code)
    (calls : Array (Nat × MethodKey)) :
    (patchCalls addresses (pending before.size items)).run
        ⟨before ++ (items.map Item.written).toArray, calls⟩ =
      (items.mapM (Item.link (List.lookup · addresses))) >>= fun is =>
        .ok ((), ⟨before ++ is.toArray, calls⟩) := by
  induction items generalizing before with
  | nil => rfl
  | cons i items ih =>
    have hrest (j : Instr) : (patchCalls addresses (pending (before.size + 1) items)).run
        ⟨before ++ (j :: items.map Item.written).toArray, calls⟩ =
        (items.mapM (Item.link (List.lookup · addresses))) >>= fun is =>
          .ok ((), ⟨before ++ (j :: is).toArray, calls⟩) := by
      simpa using ih (before.push j)
    rw [List.mapM_cons, List.map_cons]
    cases i with
    | instr i => simpa [pending, Item.callee?, Item.link, Item.written] using hrest i
    | create kind =>
      cases kind <;> simpa [pending, Item.callee?, Item.link, Item.written] using hrest _
    | call target | callOn target =>
      cases haddress : List.lookup target addresses with
      | none =>
        simp only [pending, Item.callee?, Item.link, patchCalls, haddress, Option.map_some,
          Option.toList_some, List.cons_append]
        rfl
      | some a =>
        simp only [pending, Item.callee?, Item.link, Item.written, patchCalls, haddress,
          Option.map_some, Option.toList_some, List.cons_append, List.nil_append,
          StateT.run_bind, run_patch before, Except.ok_bind, bind_pure_comp, bind_map_left]
        exact hrest _

theorem lookup_addresses (codes : List MethodCode) (key : MethodKey) :
    List.lookup key (codes.map fun m => (m.key, m.address)) =
      (codes.find? (·.key == key)).map (·.address) := by
  induction codes with
  | nil => rfl
  | cons code codes ih =>
    by_cases h : code.key = key
    · simp [h]
    · have hne : (key == code.key) = false := beq_eq_false_iff_ne.mpr (Ne.symm h)
      simp [List.lookup_cons, h, hne, ih]

theorem run_program (p : Program) (entry : MethodKey) :
    (program p entry).run {} =
      p.draft entry >>= fun d => d.items.mapM (Item.link d.address) >>= fun is =>
        .ok ((), ⟨is.toArray, (pending 0 d.items).toArray⟩) := by
  simp only [program, Program.draft, StateT.run_bind, StateT.run_get, run_items, run_methods,
    Except.ok_bind, pure_bind, bind_assoc, bind_pure_comp, bind_map_left, Emission.size_after,
    Emission.after_after, List.size_toArray, List.length_nil, Nat.zero_add]
  refine bind_congr fun codes => ?_
  have haddress : (List.lookup · (codes.map fun m => (m.key, m.address))) =
      Draft.address ⟨p.classLayouts, preamble p.staticCount entry, codes⟩ :=
    funext (lookup_addresses codes)
  have hcalls := run_patchCalls (codes.map fun m => (m.key, m.address))
    (preamble p.staticCount entry ++ codes.flatMap (·.items)) #[]
  rw [haddress] at hcalls
  simpa [Emission.after, Draft.items] using hcalls _

end Emit

end MiniJava.Generate

namespace MiniJava.Program

open Generate

/-- The code of a program is its draft with all calls resolved. -/
theorem generate_eq_link (p : Program) (entry : MethodKey) :
    p.generate (some entry) = p.draft entry >>= Draft.link := by
  simp only [generate, Emit.run_program, bind_assoc, Except.ok_bind]
  rfl

end MiniJava.Program
