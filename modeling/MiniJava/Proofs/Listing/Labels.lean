import MiniJava.Proofs.Listing.Reread
/-!
Labels. What a line says does not depend on the lines around it, except that a label is declared
once and that an address is the number of instructions before it. A symbol for a displacement is a
label that some line declares, before or after, and stands for the number of instructions before
that line. Symbols relative to the primitives are not looked up.
-/
namespace MiniJava

theorem Reg.ofName?_eq_pb_iff {name : String} {r : Reg}
    (h : Reg.ofName? name = some r) : r = .pb ↔ name = "PB" := by
  unfold Reg.ofName? at h
  have hfound := List.find?_some h
  obtain rfl : r.name = name := beq_iff_eq.mp hfound
  cases r <;> decide

namespace Listing

/-- What a line says by itself. -/
inductive Line where
  | blank
  | label (name : String)
  | instr (address : Option Word) (op : Op) (operand : Operand)
  deriving DecidableEq, Repr

namespace Line

/-- `(name)` -/
def labelOf? (w : Bytes) : Option Line :=
  let cs := w.toChars
  let name := (cs.drop 1).dropLast
  if cs.getLast? != some ')' || !isLabel name then none else some (.label (String.ofList name))

/-- An operation and its operand, after an address if there is one. -/
def instrOf? (address : Option Word) : List Bytes → Option Line
  | [] => none
  | w :: ws => do return .instr address (← Op.ofName? w.toText) (← Operand.ofWords? ws)

/-- An instruction that may stand after its address. -/
def numberedOf? (w : Bytes) (ws : List Bytes) : Option Line :=
  match (Decimal.signed? w.toChars).bind Word.ofInt? with
  | some given => instrOf? (some given) ws
  | none => instrOf? none (w :: ws)

def ofWords? : List Bytes → Option Line
  | [] => some .blank
  | w :: ws =>
    if w.head? = some '('.toUInt8 then if ws.isEmpty then labelOf? w else none else numberedOf? w ws

/-- What a line says, if it says anything. -/
def ofBytes? (l : Bytes) : Option Line := ofWords? (Blank.fields (withoutComment l))

/-- What the lines of a text say, if each of them says something. -/
def ofText? (text : Bytes) : Option (List Line) := (splitLines text).mapM ofBytes?

def isInstr : Line → Bool
  | instr _ _ _ => true
  | _ => false

/-- The symbol that is written for the displacement of an instruction, unless it is the name of a
primitive that is called. -/
def target? : Line → Option String
  | instr _ op ⟨count, some (.symbol s), reg⟩ =>
    if op = .call ∧ count = none ∧ reg = none ∧ (Prim.ofName? s).isSome then none else some s
  | _ => none

/-- The displacement of the instruction is relative to the primitives. -/
def amongPrims : Line → Bool
  | instr _ _ o => o.reg == some "PB"
  | _ => false

end Line

/-- The number of instructions that lines say. -/
def instrs (ls : List Line) : Nat := ls.countP Line.isInstr

/-- A line is in order after the lines before it: a label is new, an address is the number of
instructions so far, and an operation has the operand that it takes. -/
def Line.FitsAfter (before : List Line) : Line → Prop
  | .blank => True
  | .label name => .label name ∉ before
  | .instr address op o => (∀ w ∈ address, w.toInt = instrs before) ∧ ∃ r, instruction op o = .ok r

/-- Every line is in order after those before it. -/
def WellFormed (ls : List Line) : Prop :=
  ∀ before l after, ls = before ++ l :: after → l.FitsAfter before

/-- A line says a symbol that is to be looked up. -/
def Line.Uses (l : Line) (s : String) : Prop := l.target? = some s ∧ l.amongPrims = false

/-! ### One instruction -/

section Instruction

variable {op : Op} {o : Operand} {i : Instr} {label : Option String} {n : Word}

/-- What is kept of a symbol: nothing if it is relative to the primitives, else the symbol for
later. -/
theorem basedInstr_label {s : String} (hs : o.value = some (.symbol s))
    (h : basedInstr op n o = .ok (i, label)) :
    (o.reg = some "PB" ∧ label = none ∧ i.d = 0) ∨ (o.reg ≠ some "PB" ∧ label = some s) := by
  rw [basedInstr, hs] at h
  obtain ⟨r, hr, h⟩ := Except.bind_eq_ok.mp h
  cases h
  unfold register at hr
  split at hr
  · rename_i hreg
    cases hr
    rw [hreg]
    exact .inr ⟨(Option.some_ne_none _).symm, rfl⟩
  · rename_i name hreg
    split at hr
    · rename_i hname
      cases hr
      rw [hreg, ne_eq, Option.some_inj, ← Reg.ofName?_eq_pb_iff hname]
      by_cases hpb : r = .pb
      · exact .inl ⟨hpb, if_pos hpb, rfl⟩
      · exact .inr ⟨hpb, if_neg hpb⟩
    · cases hr

theorem basedInstr_number (hvalue : ∀ s, o.value ≠ some (.symbol s))
    (h : basedInstr op n o = .ok (i, label)) : label = none := by
  rw [basedInstr] at h
  split at h
  · cases h
  · rename_i v hv
    obtain ⟨r, -, h⟩ := Except.bind_eq_ok.mp h
    cases v with
    | number d =>
      cases h
      rfl
    | symbol s => exact absurd hv (hvalue s)

/-- An instruction is a call of a primitive by its name, or has no symbol, or is made with its
register. -/
theorem instruction_cases (h : instruction op o = .ok (i, label)) (address : Option Word) :
    (label = none ∧ (Line.instr address op o).target? = none) ∨
      ∃ n, basedInstr op n o = .ok (i, label) ∧ ∀ s, o.value = some (.symbol s) →
      (Line.instr address op o).target? = some s := by
  have hother (hop : op ≠ .call) (s : String) (hs : o.value = some (.symbol s)) :
      (Line.instr address op o).target? = some s := by
    obtain ⟨count, value, reg⟩ := o
    cases hs
    exact if_neg fun h => hop h.1
  have huncounted (h : uncountedInstr op o = .ok (i, label)) :
      basedInstr op 0 o = .ok (i, label) := by
    rw [uncountedInstr] at h
    split at h
    · cases h
    · exact h
  cases op with
  | loadi | storei | jumpi | halt =>
    obtain ⟨count, value, reg⟩ := o
    simp only [instruction] at h
    split at h
    · cases h
    · rename_i hnone
      cases h
      cases value with
      | none => exact .inl ⟨rfl, rfl⟩
      | some v => simp at hnone
  | loadl | push | pop | ret =>
    simp only [instruction] at h
    split at h
    · cases h
      exact .inl ⟨rfl, rfl⟩
    · cases h
  | load | loada | store =>
    simp only [instruction] at h
    split at h
    · exact .inr ⟨0, h, hother (by decide)⟩
    · cases h
  | jumpif =>
    simp only [instruction] at h
    split at h
    · exact .inr ⟨_, h, hother (by decide)⟩
    · cases h
  | calli | jump => exact .inr ⟨0, huncounted h, hother (by decide)⟩
  | call =>
    simp only [instruction] at h
    split at h
    · split at h
      · rename_i hprim
        cases h
        refine .inl ⟨rfl, if_pos ⟨rfl, rfl, rfl, ?_⟩⟩
        rw [hprim]
        rfl
      · rename_i hprim
        refine .inr ⟨0, huncounted h, fun s hs => ?_⟩
        cases hs
        refine if_neg fun h => ?_
        rw [hprim] at h
        exact absurd h.2.2.2 Bool.false_ne_true
    · rename_i hform
      refine .inr ⟨0, huncounted h, fun s hs => ?_⟩
      obtain ⟨count, value, reg⟩ := o
      cases hs
      exact if_neg fun h => hform s (by rw [h.2.1, h.2.2.1])

theorem Line.value_of_target? {address : Option Word} {s : String}
    (h : (Line.instr address op o).target? = some s) : o.value = some (.symbol s) := by
  obtain ⟨count, value, reg⟩ := o
  unfold target? at h
  split at h
  · rename_i hline
    cases hline
    split at h
    · cases h
    · cases h
      rfl
  · cases h

/-- What is kept for later is the symbol, unless it is relative to the primitives. -/
theorem instruction_label (h : instruction op o = .ok (i, label)) (address : Option Word) :
    label = if (Line.instr address op o).amongPrims then none
      else (Line.instr address op o).target? := by
  rcases instruction_cases h address with ⟨rfl, htarget⟩ | ⟨n, hbased, htarget⟩
  · rw [htarget, ite_self]
  · have hprims : (Line.instr address op o).amongPrims = true ↔ o.reg = some "PB" := beq_iff_eq
    by_cases hsymbol : ∃ s, o.value = some (.symbol s)
    · obtain ⟨s, hs⟩ := hsymbol
      rw [htarget s hs]
      rcases basedInstr_label hs hbased with ⟨hreg, rfl, -⟩ | ⟨hreg, rfl⟩
      · rw [if_pos (hprims.mpr hreg)]
      · rw [if_neg fun h => hreg (hprims.mp h)]
    · have hnone : (Line.instr address op o).target? = none :=
        Option.eq_none_iff_forall_ne_some.mpr fun s hs => hsymbol ⟨s, Line.value_of_target? hs⟩
      rw [hnone, ite_self]
      exact basedInstr_number (fun s hs => hsymbol ⟨s, hs⟩) hbased

theorem displacement_amongPrims {address : Option Word} {s : String}
    (h : instruction op o = .ok (i, label)) (hs : (Line.instr address op o).target? = some s)
    (hprims : (Line.instr address op o).amongPrims = true) : i.d = 0 := by
  rcases instruction_cases h address with ⟨rfl, htarget⟩ | ⟨n, hbased, -⟩
  · rw [htarget] at hs
    cases hs
  · rcases basedInstr_label (Line.value_of_target? hs) hbased with ⟨-, -, hd⟩ | ⟨hreg, -⟩
    · exact hd
    · exact absurd (beq_iff_eq.mp hprims) hreg

end Instruction

/-! ### One line -/

theorem instrs_append (ls ls' : List Line) : instrs (ls ++ ls') = instrs ls + instrs ls' :=
  List.countP_append

theorem instrs_singleton (l : Line) : instrs [l] = if l.isInstr then 1 else 0 := by
  rw [instrs, List.countP_singleton]

namespace Assembly

variable {a b : Assembly}

/-- What a line that is in order adds. -/
def Adds (a b : Assembly) : Line → Prop
  | .blank => b = a
  | .label name => a.labels.lookup name = none ∧ b = { a with labels := (name, a.here) :: a.labels }
  | .instr address op o => (∀ w ∈ address, w.toInt = a.here) ∧
      ∃ i label, instruction op o = .ok (i, label) ∧
        b = { a with entries := a.entries.push ⟨i, label, a.line⟩ }

/-- A line that says nothing adds nothing. -/
theorem refused_iff {fault : LineFault} :
    (.error fault : Except LineFault Assembly) = .ok b ↔ ∃ line, none = some line ∧
      Adds a b line := by
  constructor
  · intro h
    cases h
  · rintro ⟨line, h, -⟩
    cases h

theorem said_iff {x : Except LineFault Assembly} {line : Line} :
    (x = .ok b ↔ ∃ line', some line = some line' ∧ Adds a b line') ↔
      (x = .ok b ↔ Adds a b line) := by
  simp only [Option.some_inj, exists_eq_left']

theorem addLabel_eq_ok_iff {w : Bytes} {ws : List Bytes} :
    a.addLabel (w :: ws) = .ok b ↔
      ∃ line, (if ws.isEmpty then Line.labelOf? w else none) = some line ∧ Adds a b line := by
  cases ws with
  | cons w' ws => exact refused_iff
  | nil =>
    simp only [addLabel, Line.labelOf?, List.isEmpty_nil, if_true]
    split
    · exact refused_iff
    · rw [said_iff]
      split
      · rename_i hdeclared
        constructor
        · intro h
          cases h
        · rintro ⟨hnone, -⟩
          rw [hnone] at hdeclared
          cases hdeclared
      · rename_i hnew
        rw [Adds, and_iff_right (Option.not_isSome_iff_eq_none.mp hnew), Except.ok.injEq, eq_comm]

theorem addInstr_eq_ok_iff {address : Option Word} (haddress : ∀ w ∈ address, w.toInt = a.here)
    {ws : List Bytes} :
    a.addInstr ws = .ok b ↔ ∃ line, Line.instrOf? address ws = some line ∧ Adds a b line := by
  cases ws with
  | nil => exact refused_iff
  | cons w ws =>
    simp only [addInstr, Line.instrOf?]
    cases Op.ofName? w.toText with
    | none => exact refused_iff
    | some op =>
      cases Operand.ofWords? ws with
      | none => exact refused_iff
      | some o =>
        refine said_iff.mpr ⟨fun h => ?_, ?_⟩
        · obtain ⟨⟨i, label⟩, hinstr, h⟩ := Except.bind_eq_ok.mp h
          cases h
          exact ⟨haddress, i, label, hinstr, rfl⟩
        · rintro ⟨-, i, label, hinstr, rfl⟩
          exact Except.bind_eq_ok.mpr ⟨(i, label), hinstr, rfl⟩

theorem address_of_instrOf? {address : Option Word} {ws : List Bytes} {line : Line}
    (h : Line.instrOf? address ws = some line) : ∃ op o, line = .instr address op o := by
  cases ws with
  | nil => cases h
  | cons w ws =>
    obtain ⟨op, -, h⟩ := Option.bind_eq_some_iff.mp h
    obtain ⟨o, -, h⟩ := Option.bind_eq_some_iff.mp h
    cases h
    exact ⟨op, o, rfl⟩

theorem addNumbered_eq_ok_iff {w : Bytes} {ws : List Bytes} :
    a.addNumbered (w :: ws) = .ok b ↔ ∃ line, Line.numberedOf? w ws = some line ∧
      Adds a b line := by
  rw [addNumbered, Line.numberedOf?]
  cases (Decimal.signed? w.toChars).bind Word.ofInt? with
  | none => exact addInstr_eq_ok_iff fun w hw => absurd hw (Option.not_mem_none w)
  | some given =>
    by_cases hgiven : given.toInt = a.here
    · simp only [if_pos hgiven]
      exact addInstr_eq_ok_iff fun w hw => Option.mem_some_iff.mp hw ▸ hgiven
    · simp only [if_neg hgiven]
      constructor
      · intro h
        cases h
      · rintro ⟨line, hline, hadds⟩
        obtain ⟨op, o, rfl⟩ := address_of_instrOf? hline
        exact absurd (hadds.1 given rfl) hgiven

/-- A line is added if it says something, and adds what it says. -/
theorem addLine_eq_ok_iff {l : Bytes} :
    a.addLine l = .ok b ↔ ∃ line, Line.ofBytes? l = some line ∧ Adds a b line := by
  rw [addLine, Line.ofBytes?]
  cases Blank.fields (withoutComment l) with
  | nil =>
    refine said_iff.mpr ?_
    rw [addWords, Adds, Except.ok.injEq, eq_comm]
  | cons w ws =>
    rw [addWords, Line.ofWords?]
    split
    · exact addLabel_eq_ok_iff
    · exact addNumbered_eq_ok_iff

end Assembly

/-! ### Lines -/

theorem append_singleton_eq_iff {α : Type} {xs ys zs : List α} {x y : α} :
    xs ++ [x] = ys ++ y :: zs ↔ (xs = ys ∧ x = y ∧ zs = []) ∨ ∃ zs', zs = zs' ++ [x] ∧
      xs = ys ++ y :: zs' := by
  constructor
  · intro h
    rcases List.eq_nil_or_concat zs with rfl | ⟨zs, z, rfl⟩
    · obtain ⟨hinit, hlast⟩ := List.append_inj' h rfl
      exact .inl ⟨hinit, List.singleton_inj.mp hlast, rfl⟩
    · rw [List.concat_eq_append, ← List.cons_append, ← List.append_assoc] at h
      obtain ⟨hinit, hlast⟩ := List.append_inj' h rfl
      exact .inr ⟨zs, by rw [List.concat_eq_append, hlast], hinit⟩
  · rintro (⟨rfl, rfl, rfl⟩ | ⟨zs', rfl, rfl⟩)
    · rfl
    · rw [List.append_assoc, List.cons_append]

theorem WellFormed.concat {ls : List Line} {l : Line} (h : WellFormed ls)
    (hl : l.FitsAfter ls) : WellFormed (ls ++ [l]) := by
  intro before l' after heq
  rcases append_singleton_eq_iff.mp heq with ⟨rfl, rfl, -⟩ | ⟨after, -, hls⟩
  · exact hl
  · exact h before l' after hls

theorem WellFormed.label_once {before after : List Line} {s : String}
    (h : WellFormed (before ++ .label s :: after)) : .label s ∉ before ∧ .label s ∉ after := by
  refine ⟨h before _ after rfl, fun hmem => ?_⟩
  obtain ⟨mid, last, rfl⟩ := List.append_of_mem hmem
  have hfits :=
    h (before ++ .label s :: mid) (.label s) last (by rw [List.append_assoc, List.cons_append])
  exact hfits (List.mem_append_right _ List.mem_cons_self)

/-- A label is declared after so many instructions. -/
def DeclaredAt (ls : List Line) (s : String) (n : Nat) : Prop :=
  ∃ before after, ls = before ++ .label s :: after ∧ instrs before = n

theorem exists_declaredAt_iff {ls : List Line} {s : String} :
    (∃ n, DeclaredAt ls s n) ↔ .label s ∈ ls := by
  rw [List.mem_iff_append]
  constructor
  · rintro ⟨-, before, after, h, rfl⟩
    exact ⟨before, after, h⟩
  · rintro ⟨before, after, h⟩
    exact ⟨_, before, after, h, rfl⟩

theorem declaredAt_concat {ls : List Line} {l : Line} {s : String} {n : Nat} :
    DeclaredAt (ls ++ [l]) s n ↔ DeclaredAt ls s n ∨ (l = .label s ∧ instrs ls = n) := by
  constructor
  · rintro ⟨before, after, heq, rfl⟩
    rcases append_singleton_eq_iff.mp heq with ⟨rfl, rfl, -⟩ | ⟨after, -, hls⟩
    · exact .inr ⟨rfl, rfl⟩
    · exact .inl ⟨before, after, hls, rfl⟩
  · rintro (⟨before, after, rfl, rfl⟩ | ⟨rfl, rfl⟩)
    · exact ⟨before, after ++ [l], by rw [List.append_assoc, List.cons_append], rfl⟩
    · exact ⟨ls, [], rfl, rfl⟩

/-- The entries that lines make, each with the number of its line. -/
inductive Entries : List Line → List Entry → Prop
  | nil : Entries [] []
  | other {ls es l} : Entries ls es → l.isInstr = false → Entries (ls ++ [l]) es
  | instr {ls es address op o i label} : Entries ls es → instruction op o = .ok (i, label) →
      Entries (ls ++ [.instr address op o]) (es ++ [⟨i, label, ls.length + 1⟩])

theorem Entries.length_eq {ls : List Line} {es : List Entry}
    (h : Entries ls es) : es.length = instrs ls := by
  induction h with
  | nil => rfl
  | other _ hl ih => rw [instrs_append, instrs_singleton, hl, ih]; rfl
  | instr _ _ ih => rw [instrs_append, instrs_singleton, List.length_append, ih]; rfl

theorem Entries.split {ls : List Line} {es : List Entry} (h : Entries ls es)
    {before after : List Line} {address : Option Word} {op : Op} {o : Operand}
    (hls : ls = before ++ .instr address op o :: after) :
    ∃ es₁ i label es₂, es = es₁ ++ ⟨i, label, before.length + 1⟩ :: es₂ ∧ Entries before es₁ ∧
      instruction op o = .ok (i, label) := by
  induction h generalizing after with
  | nil => cases before <;> cases hls
  | other _ hl ih =>
    rcases append_singleton_eq_iff.mp hls with ⟨-, rfl, -⟩ | ⟨after, -, hls⟩
    · cases hl
    · exact ih hls
  | @instr ls es address' op' o' i label hes hinstr ih =>
    rcases append_singleton_eq_iff.mp hls with ⟨rfl, hline, -⟩ | ⟨after, -, hls⟩
    · cases hline
      exact ⟨es, i, label, [], rfl, hes, hinstr⟩
    · obtain ⟨es₁, i', label', es₂, rfl, hbefore, hinstr'⟩ := ih hls
      exact ⟨es₁, i', label', es₂ ++ [_], by rw [List.append_assoc, List.cons_append], hbefore,
        hinstr'⟩

theorem Entries.exists_line {ls : List Line} {es : List Entry} (h : Entries ls es) {e : Entry}
    (he : e ∈ es) :
    ∃ address op o, .instr address op o ∈ ls ∧ instruction op o = .ok (e.instr, e.label) := by
  induction h with
  | nil => cases he
  | other _ _ ih =>
    obtain ⟨address, op, o, hmem, hinstr⟩ := ih he
    exact ⟨address, op, o, List.mem_append_left _ hmem, hinstr⟩
  | @instr ls es address op o i label _ hinstr ih =>
    rw [List.mem_append, List.mem_singleton] at he
    rcases he with he | rfl
    · obtain ⟨address, op, o, hmem, hinstr⟩ := ih he
      exact ⟨address, op, o, List.mem_append_left _ hmem, hinstr⟩
    · exact ⟨address, op, o, List.mem_append_right _ (List.mem_singleton_self _), hinstr⟩

namespace Assembly

variable {a b : Assembly} {ls : List Line}

/-- What has been read after lines that are in order. -/
structure Records (a : Assembly) (ls : List Line) : Prop where
  wellFormed : WellFormed ls
  entries : Entries ls a.entries.toList
  labels : ∀ s n, a.labels.lookup s = some n ↔ DeclaredAt ls s n

theorem Records.here_eq (h : Records a ls) : a.here = instrs ls := by
  rw [here, ← Array.length_toList, h.entries.length_eq]

theorem Records.lookup_eq_none_iff (h : Records a ls) {s : String} :
    a.labels.lookup s = none ↔ .label s ∉ ls := by
  rw [← exists_declaredAt_iff, not_exists, Option.eq_none_iff_forall_ne_some]
  exact forall_congr' fun n => not_congr (h.labels s n)

theorem Records.adds (h : Records a ls) (hline : a.line = ls.length + 1) {l : Line}
    (hadds : Adds a b l) : Records b (ls ++ [l]) ∧ b.line = a.line := by
  have hlabels (hl : ∀ s, l ≠ .label s) (s : String) (n : Nat) :
      a.labels.lookup s = some n ↔ DeclaredAt (ls ++ [l]) s n := by
    rw [h.labels, declaredAt_concat, or_iff_left fun heq => hl s heq.1]
  cases l with
  | blank =>
    cases hadds
    exact ⟨⟨h.wellFormed.concat trivial, .other h.entries rfl, hlabels fun _ => Line.noConfusion⟩,
      rfl⟩
  | label name =>
    obtain ⟨hnew, rfl⟩ := hadds
    refine ⟨⟨h.wellFormed.concat (h.lookup_eq_none_iff.mp hnew), .other h.entries rfl,
      fun s n => ?_⟩, rfl⟩
    rw [declaredAt_concat, ← h.labels, Line.label.injEq]
    by_cases hs : s = name
    · subst hs
      simp [hnew, h.here_eq]
    · rw [List.lookup_cons, beq_false_of_ne hs, or_iff_left fun heq => hs heq.1.symm]
  | instr address op o =>
    obtain ⟨haddress, i, label, hinstr, rfl⟩ := hadds
    rw [h.here_eq] at haddress
    refine ⟨⟨h.wellFormed.concat ⟨haddress, _, hinstr⟩, ?_, hlabels fun _ => Line.noConfusion⟩, rfl⟩
    rw [Array.toList_push, hline]
    exact .instr h.entries hinstr

theorem Records.next (h : Records a ls) (hline : a.line = ls.length + 1) {l : Line}
    (hadds : Adds a b l) :
    Records { b with line := b.line + 1 } (ls ++ [l]) ∧ b.line + 1 = (ls ++ [l]).length + 1 := by
  obtain ⟨hrecords, hnext⟩ := h.adds hline hadds
  refine ⟨⟨hrecords.wellFormed, hrecords.entries, hrecords.labels⟩, ?_⟩
  rw [hnext, hline, List.length_append, List.length_singleton]

theorem Records.exists_adds (h : Records a ls) {l : Line}
    (hl : l.FitsAfter ls) : ∃ b, Adds a b l := by
  cases l with
  | blank => exact ⟨a, rfl⟩
  | label name => exact ⟨_, h.lookup_eq_none_iff.mpr hl, rfl⟩
  | instr address op o =>
    obtain ⟨haddress, ⟨i, label⟩, hinstr⟩ := hl
    rw [← h.here_eq] at haddress
    exact ⟨_, haddress, i, label, hinstr, rfl⟩

theorem Records.of_addLines (h : Records a ls) (hline : a.line = ls.length + 1)
    {lines : List Bytes} (hne : lines ≠ []) (hadd : addLines none a lines = (none, b)) :
    ∃ ls', lines.mapM Line.ofBytes? = some ls' ∧ Records b (ls ++ ls') := by
  induction lines generalizing a ls with
  | nil => exact absurd rfl hne
  | cons l lines ih =>
    cases lines with
    | nil =>
      simp only [addLines] at hadd
      split at hadd
      · rename_i hadded
        cases hadd
        obtain ⟨line, hread, hadds⟩ := addLine_eq_ok_iff.mp hadded
        exact ⟨[line], by rw [List.mapM_cons, hread]; rfl, (h.adds hline hadds).1⟩
      · cases hadd
    | cons l' lines =>
      obtain ⟨c, hadded, hrest⟩ := addLines_eq_none (List.cons_ne_nil _ _) hadd
      obtain ⟨line, hread, hadds⟩ := addLine_eq_ok_iff.mp hadded
      obtain ⟨hrecords, hnumber⟩ := h.next hline hadds
      obtain ⟨ls', hreads, hb⟩ := ih hrecords hnumber (List.cons_ne_nil _ _) hrest
      refine ⟨line :: ls', by rw [List.mapM_cons, hread, hreads]; rfl, ?_⟩
      rwa [List.append_assoc] at hb

theorem Records.exists_addLines (h : Records a ls) (hline : a.line = ls.length + 1)
    {lines : List Bytes} (hne : lines ≠ []) {ls' : List Line}
    (hread : lines.mapM Line.ofBytes? = some ls')
    (hwell : WellFormed (ls ++ ls')) : ∃ b, addLines none a lines = (none, b) := by
  induction lines generalizing a ls ls' with
  | nil => exact absurd rfl hne
  | cons l lines ih =>
    rw [List.mapM_cons] at hread
    obtain ⟨line, hfirst, hread⟩ := Option.bind_eq_some_iff.mp hread
    obtain ⟨ls', hrest, hread⟩ := Option.bind_eq_some_iff.mp hread
    cases hread
    obtain ⟨b, hadds⟩ := h.exists_adds (hwell ls line ls' rfl)
    have hadded : a.addLine l = .ok b := addLine_eq_ok_iff.mpr ⟨line, hfirst, hadds⟩
    cases lines with
    | nil => exact ⟨b, by simp only [addLines, hadded]⟩
    | cons l' lines =>
      obtain ⟨hrecords, hnumber⟩ := h.next hline hadds
      rw [addLines_of_ok hadded (List.cons_ne_nil _ _)]
      rw [List.append_cons] at hwell
      exact ih hrecords hnumber (List.cons_ne_nil _ _) hrest hwell

/-! ### Texts -/

theorem records_start : Records {} [] := by
  refine ⟨?_, .nil, fun s n => ⟨?_, ?_⟩⟩
  · intro before l after h
    cases before <;> cases h
  · intro h
    cases h
  · rintro ⟨before, after, h, -⟩
    cases before <;> cases h

theorem assemble_eq_code {text : Bytes}
    (h : addLines none {} (splitLines text) = (none, a)) : assemble text = a.code := by
  rw [assemble, read, h]

theorem records_of_assemble {text : Bytes} {code : Code} (h : assemble text = .ok code) :
    ∃ ls a, Line.ofText? text = some ls ∧ Records a ls ∧ a.code = .ok code := by
  rw [assemble, read] at h
  split at h
  · cases h
  · rename_i a hlines
    obtain ⟨ls, hread, hrecords⟩ := records_start.of_addLines rfl (splitLines_ne_nil text) hlines
    exact ⟨ls, a, hread, hrecords, h⟩

theorem records_of_wellFormed {text : Bytes} (hread : Line.ofText? text = some ls)
    (hwell : WellFormed ls) : ∃ a, Records a ls ∧ assemble text = a.code := by
  obtain ⟨a, hlines⟩ := records_start.exists_addLines rfl (splitLines_ne_nil text) hread hwell
  obtain ⟨ls', hread', hrecords⟩ := records_start.of_addLines rfl (splitLines_ne_nil text) hlines
  cases hread.symm.trans hread'
  exact ⟨a, hrecords, assemble_eq_code hlines⟩

/-- The symbol of an entry is one that its line uses. -/
theorem Records.exists_resolve (h : Records a ls) {es : List Entry} {before : List Line}
    (hes : Entries before es) (hdeclared : ∀ l ∈ before, ∀ s, l.Uses s → .label s ∈ ls)
    {e : Entry} (he : e ∈ es) : ∃ i, resolve a.labels e = .ok i := by
  obtain ⟨address, op, o, hmem, hinstr⟩ := hes.exists_line he
  have hlabel := instruction_label hinstr address
  rw [resolve]
  split
  · exact ⟨_, rfl⟩
  · rename_i s hs
    rw [hs] at hlabel
    have huses : (Line.instr address op o).Uses s := by
      split at hlabel
      · cases hlabel
      · rename_i hprims
        exact ⟨hlabel.symm, Bool.eq_false_iff.mpr hprims⟩
    obtain ⟨n, hn⟩ := exists_declaredAt_iff.mpr (hdeclared _ hmem s huses)
    rw [(h.labels s n).mpr hn]
    exact ⟨_, rfl⟩

theorem Records.code_ok (h : Records a ls) (hdeclared : ∀ l ∈ ls, ∀ s, l.Uses s → .label s ∈ ls) :
    ∃ code, a.code = .ok code := by
  obtain ⟨is, his⟩ := exists_mapM fun e he => h.exists_resolve h.entries hdeclared he
  exact ⟨is.toArray, by rw [code, his]; rfl⟩

/-- A symbol that is looked up and not found stops the text at its line, if none is missing
before. -/
theorem Records.code_error (h : Records a ls) {before after : List Line} {l : Line} {s : String}
    (hls : ls = before ++ l :: after) (huses : l.Uses s) (hmissing : .label s ∉ ls)
    (hdeclared : ∀ l' ∈ before, ∀ s', l'.Uses s' → .label s' ∈ ls) :
    a.code = .error (.atLine (before.length + 1) (.undefinedLabel s)) := by
  cases l with
  | blank => cases huses.1
  | label name => cases huses.1
  | instr address op o =>
    obtain ⟨es₁, i, label, es₂, hes, hbefore, hinstr⟩ := h.entries.split hls
    have hlabel : label = some s := by
      rw [instruction_label hinstr address, huses.2, if_neg Bool.false_ne_true, huses.1]
    have hfirst : ∀ e ∈ es₁, ∃ i, resolve a.labels e = .ok i :=
      fun e he => h.exists_resolve hbefore hdeclared he
    have hstop : resolve a.labels ⟨i, label, before.length + 1⟩ =
        .error (.atLine (before.length + 1) (.undefinedLabel s)) := by
      simp only [resolve, hlabel, h.lookup_eq_none_iff.mpr hmissing]
    rw [code, hes, mapM_eq_error hfirst hstop]
    rfl

theorem Records.displacement (h : Records a ls) {code : Code} (hcode : a.code = .ok code)
    {before after : List Line} {l : Line} {s : String} (hls : ls = before ++ l :: after)
    (htarget : l.target? = some s) :
    ∃ i : Instr, code[instrs before]? = some i ∧
      if l.amongPrims then i.d = 0 else ∃ n, DeclaredAt ls s n ∧ i.d = Word.ofNat n := by
  cases l with
  | blank => cases htarget
  | label name => cases htarget
  | instr address op o =>
    obtain ⟨es₁, i, label, es₂, hes, hbefore, hinstr⟩ := h.entries.split hls
    obtain ⟨is, his, hcode⟩ := Except.bind_eq_ok.mp hcode
    cases hcode
    have hentry : a.entries.toList[instrs before]? = some ⟨i, label, before.length + 1⟩ := by
      rw [hes, ← hbefore.length_eq, List.getElem?_append_right (Nat.le_refl _), Nat.sub_self,
        List.getElem?_cons_zero]
    obtain ⟨i', hresolve, hi'⟩ := getElem?_of_mapM his hentry
    refine ⟨i', by rw [List.getElem?_toArray, hi'], ?_⟩
    have hlabel := instruction_label hinstr address
    cases hprims : (Line.instr address op o).amongPrims with
    | true =>
      rw [hprims, if_pos rfl] at hlabel
      simp only [resolve, hlabel] at hresolve
      cases hresolve
      exact displacement_amongPrims hinstr htarget hprims
    | false =>
      rw [hprims, if_neg Bool.false_ne_true, htarget] at hlabel
      simp only [resolve, hlabel] at hresolve
      split at hresolve
      · rename_i n hn
        cases hresolve
        exact ⟨n, (h.labels s n).mp hn, rfl⟩
      · cases hresolve

/-- A label is declared on one line, after so many instructions. -/
def DeclaredOnce (ls : List Line) (s : String) (n : Nat) : Prop :=
  ∃ above below, ls = above ++ .label s :: below ∧ .label s ∉ above ∧ .label s ∉ below ∧
    instrs above = n

/-- A text gives code if its lines are in order and declare every symbol that is looked up. Such a
symbol is then declared on one line, before or after its use, and stands for the number of
instructions before that line; a symbol relative to the primitives stands for 0. If lines in order
lack symbols, the first use of one is reported. -/
theorem symbols_resolved_or_refused (text : Bytes) :
    ((∃ code, assemble text = .ok code) ↔
      ∃ ls, Line.ofText? text = some ls ∧ WellFormed ls ∧ ∀ l ∈ ls, ∀ s, l.Uses s → .label s ∈ ls) ∧
    (∀ code, assemble text = .ok code → ∃ ls, Line.ofText? text = some ls ∧
      ∀ (before : List Line) (l : Line) (after : List Line) (s : String),
      ls = before ++ l :: after → l.target? = some s →
        ∃ i : Instr, code[instrs before]? = some i ∧
          if l.amongPrims then i.d = 0 else ∃ n, DeclaredOnce ls s n ∧ i.d = Word.ofNat n) ∧
    ∀ ls, Line.ofText? text = some ls → WellFormed ls →
      ∀ (before : List Line) (l : Line) (after : List Line) (s : String),
      ls = before ++ l :: after → l.Uses s →
        .label s ∉ ls → (∀ l' ∈ before, ∀ s', l'.Uses s' → .label s' ∈ ls) →
          assemble text = .error (.atLine (before.length + 1) (.undefinedLabel s)) := by
  refine ⟨⟨?_, ?_⟩, fun code hcode => ?_,
    fun ls hread hwell before l after s hls huses hmissing hdeclared => ?_⟩
  · rintro ⟨code, hcode⟩
    obtain ⟨ls, a, hread, hrecords, hcode⟩ := records_of_assemble hcode
    refine ⟨ls, hread, hrecords.wellFormed, fun l hl s huses => ?_⟩
    obtain ⟨before, after, hls⟩ := List.append_of_mem hl
    obtain ⟨i, -, hd⟩ := hrecords.displacement hcode hls huses.1
    rw [huses.2, if_neg Bool.false_ne_true] at hd
    obtain ⟨n, hn, -⟩ := hd
    exact exists_declaredAt_iff.mp ⟨n, hn⟩
  · rintro ⟨ls, hread, hwell, hdeclared⟩
    obtain ⟨a, hrecords, hassemble⟩ := records_of_wellFormed hread hwell
    rw [hassemble]
    exact hrecords.code_ok hdeclared
  · obtain ⟨ls, a, hread, hrecords, hcode⟩ := records_of_assemble hcode
    refine ⟨ls, hread, fun before l after s hls htarget => ?_⟩
    obtain ⟨i, hi, hd⟩ := hrecords.displacement hcode hls htarget
    refine ⟨i, hi, ?_⟩
    by_cases hprims : l.amongPrims = true
    · rw [if_pos hprims] at hd ⊢
      exact hd
    · rw [if_neg hprims] at hd ⊢
      obtain ⟨n, ⟨above, below, hdecl, hn⟩, hd⟩ := hd
      obtain ⟨habove, hbelow⟩ := (hdecl ▸ hrecords.wellFormed).label_once
      exact ⟨n, ⟨above, below, hdecl, habove, hbelow, hn⟩, hd⟩
  · obtain ⟨a, hrecords, hassemble⟩ := records_of_wellFormed hread hwell
    rw [hassemble]
    exact hrecords.code_error hls huses hmissing hdeclared

def missingAmongPrims : Bytes := Bytes.ofString "JUMP nowhere[PB]"

def declaredAmongPrims : Bytes := Bytes.ofString "HALT\n(end)\nJUMP end[PB]"

/-- A symbol relative to the primitives is not looked up: it may be missing, and one that is
declared stands for 0. -/
theorem symbol_amongPrims_unresolved :
    (Line.ofText? missingAmongPrims =
      some [.instr none .jump ⟨none, some (.symbol "nowhere"), some "PB"⟩] ∧
      assemble missingAmongPrims = .ok #[.of .jump 0 .pb 0]) ∧
    Line.ofText? declaredAmongPrims = some [.instr none .halt ⟨none, none, none⟩, .label "end",
        .instr none .jump ⟨none, some (.symbol "end"), some "PB"⟩] ∧
      assemble declaredAmongPrims = .ok #[.of .halt 0 .zr 0, .of .jump 0 .pb 0] := by
  decide +kernel

end Assembly

end Listing

end MiniJava
