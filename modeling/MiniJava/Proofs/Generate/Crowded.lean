import MiniJava.Proofs.Order.Rearranged
import MiniJava.Proofs.Places.Print
/-!
Programs with as many parameters and fields as one likes. Neither of them takes an instruction, so
such programs have short code with large numbers in it.
-/
namespace MiniJava

/-- The name of `k + 1` letters. -/
def letters (k : Nat) : String := String.ofList (List.replicate (k + 1) 'x')

theorem toList_letters (k : Nat) : (letters k).toList = 'x' :: List.replicate k 'x' := by
  rw [letters, String.toList_ofList, List.replicate_succ]

theorem letters_injective {j k : Nat} (h : letters j = letters k) : j = k := by
  have hlength := congrArg (·.toList.length) h
  simpa [toList_letters] using hlength

theorem isName_letters (k : Nat) : isName (letters k) = true := by
  have hword : isWord (letters k) = true := by
    have hletter : Scan.isWordChar 'x' = true := by decide
    rw [isWord, toList_letters]
    simp [hletter]
    decide
  have hkeyword : Keyword.ofText? (letters k) = none := by
    have hfirst : ∀ word ∈ Keyword.all, word.text.toList.head? ≠ some 'x' := by decide
    refine List.find?_eq_none.mpr fun word hmem htext => hfirst word hmem ?_
    rw [beq_iff_eq.mp htext, toList_letters]
    rfl
  rw [isName, hword, hkeyword]
  rfl

/-- The names of the first letters, in any order in which they are declared. -/
theorem nodup_letters (n : Nat) : ((List.range n).map letters).Nodup :=
  List.nodup_range.map fun _ _ => letters_injective

/-- Parameters of type `int` can be declared if their names are new and all different. -/
theorem Resolve.Holds.exists_params {scopes : Scopes Meaning} {level : Level Meaning}
    {outer : List (Level Meaning)} (ctx : Context) {vs : List Variable} (i : Nat)
    (h : Holds scopes level outer) (htypes : ∀ v ∈ vs, Resolve.type ctx.classes v.type = .ok ())
    (hnames : ((vs.map (·.name)).reverse ++ level.map (·.1)).Nodup) :
    ∃ scopes', Resolve.params ctx i vs scopes = .ok scopes' := by
  induction vs generalizing i scopes level with
  | nil => exact ⟨scopes, rfl⟩
  | cons v vs ih =>
    rw [List.map_cons, List.reverse_cons, List.append_assoc, List.singleton_append] at hnames
    obtain ⟨htype, htypes⟩ := List.forall_mem_cons.mp htypes
    have hnew :
        (List.map Prod.fst (([] : Level Meaning) ++ (v.name, Meaning.param i v) :: level)).Nodup :=
      (List.nodup_append.mp hnames).2.1
    obtain ⟨scopes₁, henter⟩ := h.exists_enter hnew
    obtain ⟨scopes', hrest⟩ := ih (i + 1) (h.enter henter) htypes hnames
    refine ⟨scopes', ?_⟩
    rw [Resolve.params, htype]
    simp only [Except.ok_bind, henter]
    exact hrest

namespace Crowded

/-- The entry method makes an object. -/
def main : Method :=
  ⟨⟨"main", .void blank, blank, false, true, [⟨"a", .array (.cls ⟨"String", blank⟩) blank, blank⟩]⟩,
    [.declare ⟨"o", .cls ⟨"A", blank⟩, blank⟩ (.newObject ⟨"A", blank⟩ blank) blank]⟩

/-- A method that does nothing with its parameters. -/
def idle (vs : List Variable) : Method := ⟨⟨"f", .void blank, blank, false, false, vs⟩, []⟩

/-- A class with some fields, the entry method and a method with some parameters. -/
def cls (vs : List Variable) (fs : List Field) : ClassDecl :=
  ⟨⟨"A", blank⟩, blank, fs, [main, idle vs]⟩

def program (vs : List Variable) (fs : List Field) : Program := ⟨[cls vs fs], blank⟩

def code (params fields : Nat) : Code :=
  #[.of .push 0 .zr 1, .of .loadl 0 .zr 0, .prim .newarr, .of .call 0 .cb 5, .of .halt 0 .zr 0,
    .of .loadl 0 .zr (-1), .of .loadl 0 .zr (Word.ofNat fields), .prim .newobj, .of .ret 0 .zr 1,
    .of .ret 0 .zr (Word.ofNat params)]

/-- Parameters and instance fields of type `int` with names of their own. -/
structure IsPlain (vs : List Variable) (fs : List Field) : Prop where
  params : ∀ v ∈ vs, v.type = .int blank ∧ isName v.name = true
  fields : ∀ f ∈ fs, f.type = .int blank ∧ f.isStatic = false ∧ isName f.name = true
  paramNames : (vs.map (·.name)).Nodup
  memberNames : (fs.map (·.name) ++ ["main", "f"]).Nodup

/-- The scope of all classes. -/
def classLevel : Level Meaning := ("A", .cls "A") :: (Resolve.classEntries Library.classes).reverse

section

variable {vs : List Variable} {fs : List Field} (h : IsPlain vs fs)

include h

theorem isWritable_program : (program vs fs).isWritable = true := by
  have hvs : vs.all Variable.isWritable = true := by
    refine List.all_eq_true.mpr fun v hv => ?_
    obtain ⟨htype, hname⟩ := h.params v hv
    rw [Variable.isWritable, htype, hname]
    rfl
  have hfs : fs.all Field.isWritable = true := by
    refine List.all_eq_true.mpr fun f hf => ?_
    obtain ⟨htype, -, hname⟩ := h.fields f hf
    rw [Field.isWritable, htype, hname]
    rfl
  have hname : isName "A" = true := by decide
  have hmain : main.isWritable = true := by decide
  have hidle : (idle vs).isWritable = true := by
    simp only [idle, Method.isWritable, hvs]
    decide
  simp [program, cls, ClassDecl.name, Program.isWritable, ClassDecl.isWritable, hname, hfs, hmain,
    hidle]

theorem exists_members :
    ∃ level, Resolve.enterMembers "A" (Resolve.members (cls vs fs) 0) ⟨[[], classLevel], none⟩ =
      .ok ⟨[level, classLevel], none⟩ := by
  have hopen : Resolve.Holds ⟨[[], classLevel], none⟩ [] [classLevel] :=
    ⟨rfl, Nat.le_succ 1, List.nodup_nil⟩
  have hnames : ((Resolve.memberMeanings (cls vs fs)).map Meaning.name).Nodup := by
    rw [Resolve.memberMeanings_names]
    exact h.memberNames
  rw [← Resolve.members_meanings _ 0, List.map_map, ← List.nodup_reverse, ← List.map_reverse]
    at hnames
  have hentered : ∃ scopes,
      Resolve.enterMembers "A" (Resolve.members (cls vs fs) 0) ⟨[[], classLevel], none⟩ =
        .ok scopes := by
    apply hopen.exists_enterMembers
    rw [List.append_nil, List.map_reverse, List.map_map, ← List.map_reverse]
    exact hnames
  obtain ⟨scopes, hscopes⟩ := hentered
  rw [(hopen.enterMembers hscopes).eq] at hscopes
  exact ⟨_, hscopes⟩

theorem method_idle (ctx : Resolve.Context) (level : Level Meaning) :
    Resolve.method ctx ⟨[level, classLevel], none⟩ (idle vs) = .ok (idle vs) := by
  have hopen : Resolve.Holds ⟨[[], level, classLevel], none⟩ [] [level, classLevel] :=
    ⟨rfl, Nat.le_refl 2, List.nodup_nil⟩
  have htypes : ∀ v ∈ vs, Resolve.type ctx.classes v.type = .ok () := by
    intro v hv
    rw [(h.params v hv).1]
    rfl
  obtain ⟨scopes, hscopes⟩ := hopen.exists_params ctx 0 htypes (by simpa using h.paramNames)
  simp only [Resolve.method, idle, Scopes.openScope, hscopes]
  rfl

/-- There is no reference whose meaning would be filled in. -/
theorem resolve_program : (program vs fs).resolve = .ok (program vs fs) := by
  have hclasses : Resolve.enterClasses 0 (program vs fs).classes Resolve.predefined =
      .ok ⟨[classLevel], none⟩ := rfl
  obtain ⟨level, hlevel⟩ := exists_members h
  have hfields : Resolve.fieldTypes (program vs fs).allClasses fs = .ok () := by
    refine Resolve.fieldTypes_eq_ok_iff.mpr fun f hf => ?_
    rw [(h.fields f hf).1]
    rfl
  have hmain (k : Nat) : Resolve.method ⟨(program vs fs).allClasses, "A", main.toSignature, 0, k⟩
      ⟨[level, classLevel], none⟩ main = .ok main := rfl
  have hmethods :
      Resolve.methods (fun m k => ⟨(program vs fs).allClasses, "A", m, 0, k⟩) ⟨[level, classLevel],
      none⟩ 0
      [main, idle vs] = .ok [main, idle vs] :=
    Resolve.methods_of_forall₂ (.cons hmain (.cons (fun _ => method_idle h _ level) .nil))
  have hclass : Resolve.classDecl (program vs fs).allClasses ⟨[classLevel], none⟩ 0 (cls vs fs) =
      .ok (cls vs fs) :=
    Except.bind_eq_ok.mpr ⟨_, hlevel,
      Except.bind_eq_ok.mpr ⟨(), hfields, Except.bind_eq_ok.mpr ⟨_, hmethods, rfl⟩⟩⟩
  have hdecls : Resolve.classDecls (program vs fs).allClasses ⟨[classLevel], none⟩ 0 [cls vs fs] =
      .ok [cls vs fs] :=
    Except.bind_eq_ok.mpr ⟨_, hclass, Except.bind_eq_ok.mpr ⟨[], rfl, rfl⟩⟩
  exact Except.bind_eq_ok.mpr ⟨_, hclasses, Except.bind_eq_ok.mpr ⟨_, hdecls, rfl⟩⟩

theorem generate_program :
    (program vs fs).generate (some ⟨"A", "main"⟩) =
      .ok (code vs.length (fs.countP (!·.isStatic))) := by
  have hfs : fs.filter (·.isStatic) = [] := by
    refine List.filter_eq_nil_iff.mpr fun f hf => ?_
    rw [(h.fields f hf).2.1]
    exact Bool.false_ne_true
  have hstatics : (program vs fs).staticCount = 1 := by
    simp only [program, cls, Program.staticCount, Program.allClasses, List.cons_append,
      List.flatMap_cons, hfs]
    rfl
  have hdraft : (program vs fs).draft ⟨"A", "main"⟩ = .ok ⟨(program vs fs).classLayouts,
      Generate.preamble 1 ⟨"A", "main"⟩,
      [⟨⟨"A", "main"⟩, 5, (Frame.entry 1).declare.shrink Frame.linkSize,
          [.literal (-1), .literal (Word.ofNat (fs.countP (!·.isStatic))), .create (.object "A"),
            .ret 0 1]⟩,
        ⟨⟨"A", "f"⟩, 9, (Frame.entry vs.length).shrink Frame.linkSize, [.ret 0 vs.length]⟩]⟩ := by
    rw [Program.draft, hstatics]
    rfl
  rw [Program.generate_eq_link, hdraft]
  rfl

theorem compile_program :
    (compile (program vs fs).print).code = .ok (code vs.length (fs.countP (!·.isStatic))) := by
  have hunbound : (program vs fs).unbound = program vs fs := rfl
  have herrors : (program vs fs).check.errors = [] := rfl
  have hentry : (program vs fs).check.entry = some ⟨"A", "main"⟩ := rfl
  rw [Program.compile_print (isWritable_program h) rfl, hunbound]
  simp only [Compile.resolve_of_ok (resolve_program h), Compile.check, herrors, hentry,
    Compile.generate, generate_program h]
  rfl

end

end Crowded

/-- The program whose class has so many instance fields and a method with so many parameters. -/
def crowded (params fields : Nat) : Program :=
  Crowded.program ((List.range params).map fun k => ⟨letters k, .int blank, blank⟩)
    ((List.range fields).map fun k => ⟨letters k, .int blank, blank, false, false⟩)

theorem compile_crowded (params fields : Nat) :
    (compile (crowded params fields).print).code = .ok (Crowded.code params fields) := by
  have hplain : Crowded.IsPlain ((List.range params).map fun k => ⟨letters k, .int blank, blank⟩)
      ((List.range fields).map fun k => ⟨letters k, .int blank, blank, false, false⟩) := by
    refine ⟨by simp [isName_letters], by simp [isName_letters], ?_, ?_⟩
    · rw [List.map_map]
      exact nodup_letters params
    · rw [List.map_map]
      refine List.nodup_append.mpr ⟨nodup_letters fields, by decide, ?_⟩
      have hlast : ∀ name ∈ ["main", "f"], name.toList.head? ≠ some 'x' := by decide
      rintro _ hletters name hname rfl
      obtain ⟨k, -, rfl⟩ := List.mem_map.mp hletters
      exact hlast _ hname (by rw [Function.comp_apply, toList_letters]; rfl)
  have hcompile := Crowded.compile_program hplain
  simpa [crowded, List.countP_map, Function.comp_def] using hcompile

end MiniJava
