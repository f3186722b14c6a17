import MiniJava.Command.Tools
import MiniJava.Proofs.Command.Files
import MiniJava.Proofs.Command.Kinds
/-!
What the compiler leaves in the files. It saves the object file and then the listing without a look
at the names: if two of source, object file and listing are the same file, the one that is written
last is what is left of them. Nothing is assumed of the files but what a save does to them.
-/
namespace MiniJava.Command

open FileSystem LawfulFileSystem

variable {φ : Type}

section Work

variable {α β : Type} {w : World φ} {P : α → World φ → Prop} {E : Failure → World φ → Prop}

/-- Work that starts in a world ends with what `P` says if it succeeds, and with what `E` says if it
fails. -/
def Does (x : Work (StateM (World φ)) α) (w : World φ) (P : α → World φ → Prop)
    (E : Failure → World φ → Prop) : Prop :=
  (∀ a u, ExceptT.run x w = (.ok a, u) → P a u) ∧ ∀ e u, ExceptT.run x w = (.error e, u) → E e u

section Bind

variable {x : Work (StateM (World φ)) α} {f : α → Work (StateM (World φ)) β} {a : α} {e : Failure}
  {u : World φ}

theorem run_bind_of_ok (h : ExceptT.run x w = (.ok a, u)) :
    ExceptT.run (x >>= f) w = ExceptT.run (f a) u := by
  have hrun :
      ExceptT.run (x >>= f) w = ExceptT.bindCont f (ExceptT.run x w).1 (ExceptT.run x w).2 := rfl
  rw [hrun, h]
  rfl

theorem run_bind_of_error (h : ExceptT.run x w = (.error e, u)) :
    ExceptT.run (x >>= f) w = (.error e, u) := by
  have hrun :
      ExceptT.run (x >>= f) w = ExceptT.bindCont f (ExceptT.run x w).1 (ExceptT.run x w).2 := rfl
  rw [hrun, h]
  rfl

theorem Does.bind {Q : α → World φ → Prop} {P : β → World φ → Prop} (hx : Does x w Q E)
    (hf : ∀ a u, Q a u → Does (f a) u P E) : Does (x >>= f) w P E := by
  cases h : ExceptT.run x w with
  | mk r u =>
    cases r with
    | ok a =>
      unfold Does
      rw [run_bind_of_ok h]
      exact hf a u (hx.1 a u h)
    | error e =>
      have hfails : ExceptT.run (x >>= f) w = (.error e, u) := run_bind_of_error h
      constructor
      · intro b v hb
        cases hfails.symm.trans hb
      · intro e' v he
        cases hfails.symm.trans he
        exact hx.2 e u h

end Bind

variable {x : Work (StateM (World φ)) α} {u : World φ}

theorem does_of_ok {a : α} (hx : ExceptT.run x w = (.ok a, u)) (h : P a u) : Does x w P E := by
  constructor
  · intro b v hb
    cases hx.symm.trans hb
    exact h
  · intro e v he
    cases hx.symm.trans he

theorem does_of_error {e : Failure} (hx : ExceptT.run x w = (.error e, u))
    (h : E e u) : Does x w P E := by
  constructor
  · intro b v hb
    cases hx.symm.trans hb
  · intro e' v he
    cases hx.symm.trans he
    exact h

theorem Does.imp {Q : α → World φ → Prop} {F : Failure → World φ → Prop} (hx : Does x w Q F)
    (hP : ∀ a u, Q a u → P a u) (hE : ∀ e u, F e u → E e u) : Does x w P E :=
  ⟨fun a u h => hP a u (hx.1 a u h), fun e u h => hE e u (hx.2 e u h)⟩

theorem does_lift {y : StateM (World φ) α} (h : P (y w).1 (y w).2) : Does (ExceptT.lift y) w P E :=
  does_of_ok rfl h

theorem does_when {c : Prop} [Decidable c] {x : Work (StateM (World φ)) Unit}
    {k : Unit → Work (StateM (World φ)) α} (hx : Does x w (fun _ u => u.files = w.files) E)
    (hk : ∀ u : World φ, u.files = w.files → Does (k ()) u P E) :
    Does (if c then x >>= k else k ()) w P E := by
  split
  · exact hx.bind fun _ u hu => hk u hu
  · exact hk w rfl

variable [FileSystem φ]

theorem run_openFile_of_ok {name : String} {e : Entry} (h : open? w.files name = .ok e) :
    ExceptT.run (openFile name : Work (StateM (World φ)) Entry) w = (.ok e, w) := by
  have hhost : ExceptT.run (ExceptT.lift (Host.openFile name) :
      Work (StateM (World φ)) (Except FileFault Entry)) w = (.ok (open? w.files name), w) := rfl
  rw [openFile, run_bind_of_ok hhost, h]
  rfl

theorem run_openFile_of_error {name : String} {fault : FileFault}
    (h : open? w.files name = .error fault) :
    ExceptT.run (openFile name : Work (StateM (World φ)) Entry) w = (.error (.openFile name fault),
      w) := by
  have hhost : ExceptT.run (ExceptT.lift (Host.openFile name) :
      Work (StateM (World φ)) (Except FileFault Entry)) w = (.ok (open? w.files name), w) := rfl
  rw [openFile, run_bind_of_ok hhost, h]
  rfl

theorem does_openFile {P : Entry → World φ → Prop} {name : String}
    (hopen : ∀ e, open? w.files name = .ok e → P e w)
    (hfault : ∀ fault, open? w.files name = .error fault → E (.openFile name fault) w) :
    Does (openFile name) w P E := by
  cases h : open? w.files name with
  | ok e => exact does_of_ok (run_openFile_of_ok h) (hopen e h)
  | error fault => exact does_of_error (run_openFile_of_error h) (hfault fault h)

theorem does_saveFile {P : Unit → World φ → Prop} {name : String} {bytes : Bytes}
    (hsave : ∀ files, save w.files name bytes = (.ok (), files) → P () { w with files })
    (hfault : ∀ fault files, save w.files name bytes = (.error fault, files) →
      E (.openFile name fault) { w with files }) :
    Does (saveFile name bytes) w P E := by
  have hhost : ExceptT.run (ExceptT.lift (Host.saveFile name bytes) :
      Work (StateM (World φ)) (Except FileFault Unit)) w =
      (.ok (save w.files name bytes).1, { w with files := (save w.files name bytes).2 }) := rfl
  unfold Does saveFile
  rw [run_bind_of_ok hhost]
  cases h : save w.files name bytes with
  | mk r files =>
    cases r with
    | ok _ => exact does_of_ok rfl (hsave files h)
    | error fault => exact does_of_error rfl (hfault fault files h)

end Work

variable [FileSystem φ]

/-- The files `u` are those of `t` with an object file of code and, if it is asked for, with a
listing. -/
def Saves (t u : φ) (o : CompileOptions) (object : String) (code : Code) : Prop :=
  ∃ v, save t object (Object.write code.toList) = (.ok (), v) ∧
    if o.asm = true then save v (listingName object) (Listing.print code) = (.ok (), u) else u = v

/-- The files `u` are left by the compilation of a source that is found in `t`. -/
structure Compiled (t u : φ) (o : CompileOptions) (path : String) (source : Bytes)
    (code : Code) : Prop where
  opened : open? t path = .ok (.file source)
  compiled : (compile source).code = .ok code
  saved : Saves t u o (o.objectPath path) code

theorem compile_nil (code : Code) : (compile []).code ≠ .ok code := by
  have hnone : (compile []).code.toOption = none := by decide +kernel
  intro h
  rw [h] at hnone
  cases hnone

/-- The file is an object file of the code. -/
def HoldsCode (t : φ) (name : String) (code : Code) : Prop :=
  ∃ bytes, open? t name = .ok (.file bytes) ∧ Object.read bytes = .ok code.toList

theorem loadObject_eq_ok_iff {w : World φ} {name : String} {code : Code} :
    ExceptT.run (loadObject name : Work (StateM (World φ)) Code) w = (.ok code, w) ↔
      HoldsCode w.files name code := by
  unfold loadObject
  constructor
  · intro h
    cases hopen : open? w.files name with
    | error fault => cases (run_bind_of_error (run_openFile_of_error hopen)).symm.trans h
    | ok e =>
      rw [run_bind_of_ok (run_openFile_of_ok hopen)] at h
      cases e with
      | directory => cases h
      | file bytes =>
        cases hread : Object.read bytes with
        | ok is =>
          simp only [hread] at h
          cases h
          exact ⟨bytes, hopen, hread⟩
        | error e =>
          simp only [hread] at h
          cases h
  · rintro ⟨bytes, hopen, hread⟩
    rw [run_bind_of_ok (run_openFile_of_ok hopen)]
    simp only [hread]
    rfl

section Laws

variable [LawfulFileSystem φ] {t u : φ} {o : CompileOptions} {path : String} {source : Bytes}
  {code : Code}

/-- A listing is asked for and goes where the name leads. -/
def ListsOver (t : φ) (o : CompileOptions) (object name : String) : Prop :=
  o.asm = true ∧ SameFile t (listingName object) name

/-- The source is kept exactly if neither the object file nor the listing is saved over it. -/
theorem Compiled.source_iff (h : Compiled t u o path source code) :
    open? u path = .ok (.file source) ↔ ¬ SameFile t (o.objectPath path) path ∧
      ¬ ListsOver t o (o.objectPath path) path := by
  obtain ⟨v, hv, hu⟩ := h.saved
  have hobject : open? v path = .ok (.file source) ↔
      ¬ SameFile t (o.objectPath path) path ∧ open? t path = .ok (.file source) :=
    open?_save_of_ne hv (write_ne_source h.compiled)
  by_cases hasm : o.asm = true
  · rw [if_pos hasm] at hu
    rw [open?_save_of_ne hu (print_ne_source h.compiled), hobject, sameFile_save hv]
    constructor
    · rintro ⟨hlisting, hother, -⟩
      exact ⟨hother, fun hboth => hlisting hboth.2⟩
    · rintro ⟨hother, hlisting⟩
      exact ⟨fun hsame => hlisting ⟨hasm, hsame⟩, hother, h.opened⟩
  · rw [if_neg hasm] at hu
    rw [hu, hobject]
    constructor
    · rintro ⟨hother, -⟩
      exact ⟨hother, fun hboth => hasm hboth.1⟩
    · rintro ⟨hother, -⟩
      exact ⟨hother, h.opened⟩

theorem holdsCode_write_iff {v : φ} {object : String}
    (hv : save t object (Object.write code.toList) = (.ok (), v)) :
    HoldsCode v object code ↔ ∀ i ∈ code, i.Fits := by
  have hopen (x : Bytes) : open? v object = .ok (.file x) ↔ x = Object.write code.toList := by
    rw [open?_save_self hv]
    simp [eq_comm]
  unfold HoldsCode
  simp only [hopen, exists_eq_left, Object.read_write_eq_iff, Array.mem_toList_iff]

/-- The object file holds the code exactly if its words have 32 bits and the listing is not saved
over it. -/
theorem Compiled.object_iff (h : Compiled t u o path source code) :
    HoldsCode u (o.objectPath path) code ↔ (∀ i ∈ code, i.Fits) ∧
      ¬ ListsOver t o (o.objectPath path) (o.objectPath path) := by
  obtain ⟨v, hv, hu⟩ := h.saved
  have hobject : HoldsCode v (o.objectPath path) code ↔ ∀ i ∈ code, i.Fits := holdsCode_write_iff hv
  by_cases hasm : o.asm = true
  · rw [if_pos hasm] at hu
    by_cases hsame : SameFile t (listingName (o.objectPath path)) (o.objectPath path)
    · constructor
      · rintro ⟨bytes, hbytes, hread⟩
        cases open?_save_same hu ((sameFile_save hv).mpr hsame) hbytes
        exact absurd hread (read_print_ne h.compiled)
      · rintro ⟨-, hlisting⟩
        exact absurd ⟨hasm, hsame⟩ hlisting
    · have hkept : HoldsCode u (o.objectPath path) code ↔ HoldsCode v (o.objectPath path) code := by
        unfold HoldsCode
        simp only [open?_save_other hu (mt (sameFile_save hv).mp hsame)]
      rw [hkept, hobject]
      exact ⟨fun hfits => ⟨hfits, fun hboth => hsame hboth.2⟩, And.left⟩
  · rw [if_neg hasm] at hu
    rw [hu, hobject]
    exact ⟨fun hfits => ⟨hfits, fun hboth => hasm hboth.1⟩, And.left⟩

end Laws

section Compiler

variable {dump : Program → String} {fuel : Nat} {o : CompileOptions} {w : World φ}

theorem does_saveCode (hrun : o.run = false) {object : String} {code : Code} :
    Does (saveCode fuel o object code) w (fun _ u => Saves w.files u.files o object code)
      fun e _ =>
      e ≠ .compilation .invalidProgram ∧ ∀ files, ¬ Saves w.files files o object code := by
  unfold saveCode
  have hend (u : World φ) : Does (if o.run = true then execute fuel code >>= finish else pure () :
      Work (StateM (World φ)) Unit) u (fun _ v => v = u)
      fun e _ =>
        e ≠ .compilation .invalidProgram ∧ ∀ files, ¬ Saves w.files files o object code := by
    rw [hrun]
    exact does_of_ok rfl rfl
  apply Does.bind (does_saveFile
    (P := fun _ u => save w.files object (Object.write code.toList) = (.ok (), u.files))
    (fun files h => h) _)
  · intro _ u hu
    apply does_when (does_lift rfl)
    intro v hv
    rw [← hv] at hu
    by_cases hasm : o.asm = true
    · simp only [if_pos hasm]
      apply Does.bind (does_saveFile
        (P := fun _ r => save v.files (listingName object) (Listing.print code) = (.ok (), r.files))
        (fun files h => h) _)
      · intro _ r hr
        apply (hend r).imp _ fun _ _ h => h
        rintro _ _ rfl
        exact ⟨v.files, hu, if_pos hasm ▸ hr⟩
      · intro fault r hfault
        refine ⟨Failure.noConfusion, ?_⟩
        rintro files ⟨v', hv', hsaved⟩
        cases hu.symm.trans hv'
        rw [if_pos hasm] at hsaved
        cases hfault.symm.trans hsaved
    · simp only [if_neg hasm]
      apply (hend v).imp _ fun _ _ h => h
      rintro _ _ rfl
      exact ⟨_, hu, if_neg hasm ▸ rfl⟩
  · intro fault r hfault
    refine ⟨Failure.noConfusion, ?_⟩
    rintro files ⟨v', hv', -⟩
    cases hfault.symm.trans hv'

/-- If the program is not valid, nothing has been saved yet. -/
theorem does_compileSource (hrun : o.run = false) {object : String} {source : Bytes} :
    Does (compileSource dump fuel o object source) w
      (fun _ u => ∃ code, (compile source).code = .ok code ∧ Saves w.files u.files o object code)
      fun e u => (e = .compilation .invalidProgram → u.files = w.files) ∧
        ∀ code, (compile source).code = .ok code →
        ∀ files, ¬ Saves w.files files o object code := by
  unfold compileSource
  apply does_when (does_lift rfl)
  intro u hu
  apply Does.bind (does_lift (P := fun _ v => v.files = u.files) rfl)
  intro _ v hv
  rw [← hu, ← hv]
  cases hcode : (compile source).code with
  | error cause =>
    apply does_of_error (u := v) rfl
    exact ⟨fun _ => rfl, fun code h => by cases h⟩
  | ok code =>
    apply (does_saveCode hrun).imp
    · intro _ r hr
      exact ⟨code, rfl, hr⟩
    · rintro e r ⟨he, hfails⟩
      refine ⟨fun h => absurd h he, ?_⟩
      rintro code' ⟨⟩
      exact hfails

/-- The compiler leaves the files of a compilation, or there is none; if the program is not valid,
it has changed no file. -/
theorem does_compileFile (hrun : o.run = false) {path : String} :
    Does (compileFile dump fuel o path) w
      (fun _ u => ∃ source code, Compiled w.files u.files o path source code)
      fun e u => (e = .compilation .invalidProgram → u.files = w.files) ∧
        ∀ files source code, ¬ Compiled w.files files o path source code := by
  unfold compileFile
  apply Does.bind (does_openFile (P := fun e u => open? w.files path = .ok e ∧ u = w)
    (fun e he => ⟨he, rfl⟩) _)
  · rintro entry u ⟨hentry, rfl⟩
    apply (does_compileSource hrun).imp
    · rintro _ v ⟨code, hcode, hsaved⟩
      cases entry with
      | file source => exact ⟨source, code, hentry, hcode, hsaved⟩
      | directory => exact absurd hcode (compile_nil code)
    · rintro e v ⟨hinvalid, hfails⟩
      refine ⟨hinvalid, ?_⟩
      intro files source code h
      cases hentry.symm.trans h.opened
      exact hfails code h.compiled files h.saved
  · intro fault hfault
    refine ⟨fun h => Failure.noConfusion h, ?_⟩
    intro files source code h
    cases hfault.symm.trans h.opened

end Compiler

section Exit

variable {tool : Tool} {work : Work (StateM (World φ)) Unit} {status : Nat} {w u v : World φ}

/-- The statuses 0 and 4 tell how the work of a command has ended. -/
theorem exit_eq {r : Except Failure Unit} (hwork : ExceptT.run work w = (r, v))
    (h : tool.exit work w = (status, u)) : u.files = v.files ∧ (status = 0 ↔ r = .ok ()) ∧
      (status = 4 → r = .error (.compilation .invalidProgram)) := by
  have hrun : tool.exit work w =
      (tool.conclude (ExceptT.run work w).1 : StateM (World φ) Nat) (ExceptT.run work w).2 := rfl
  rw [hrun, hwork] at h
  cases r with
  | ok _ =>
    cases h
    exact ⟨rfl, by simp, by simp⟩
  | error e =>
    cases e with
    | compilation cause => cases cause <;> cases h <;> exact ⟨rfl, by simp, by simp⟩
    | _ =>
      cases h
      exact ⟨rfl, by simp, by simp⟩

end Exit

section Run

variable {dump : Program → String} {fuel status : Nat} {o : CompileOptions} {path : String}
  {w u : World φ}

theorem exit_compileFile (hrun : o.run = false)
    (h : (Tool.compiler.exit (compileFile dump fuel o path) : StateM (World φ) Nat) w =
      (status, u)) :
    (status = 0 → ∃ source code, Compiled w.files u.files o path source code) ∧
      (status ≠ 0 → ∀ files source code, ¬ Compiled w.files files o path source code) ∧
      (status = 4 → u.files = w.files) := by
  obtain ⟨hok, herror⟩ := @does_compileFile φ _ dump fuel o w hrun path
  cases hend : ExceptT.run (compileFile dump fuel o path : Work (StateM (World φ)) Unit) w with
  | mk r v =>
    obtain ⟨hfiles, hzero, hfour⟩ := exit_eq hend h
    rw [hfiles]
    cases r with
    | ok a =>
      refine ⟨fun _ => hok a v hend, fun hne => absurd (hzero.mpr rfl) hne, ?_⟩
      intro hstatus
      cases hfour hstatus
    | error e =>
      obtain ⟨hinvalid, hnone⟩ := herror e v hend
      refine ⟨?_, fun _ => hnone, fun hstatus => hinvalid (Except.error.inj (hfour hstatus))⟩
      intro hstatus
      cases hzero.mp hstatus

/-- The compiler ends with status 0 exactly if there is something to leave. The code is in the
object file exactly if its words have 32 bits and no listing was saved there, and the source is what
it was exactly if nothing was saved there. With status 4 no file has changed. -/
theorem compilation_keeps_files_iff [LawfulFileSystem φ] (hrun : o.run = false)
    (h : (Tool.compiler.exit (compileFile dump fuel o path) : StateM (World φ) Nat) w =
      (status, u)) :
    (status = 0 ↔ ∃ files source code, Compiled w.files files o path source code) ∧
    (status = 0 → ∃ source code,
      open? w.files path = .ok (.file source) ∧ (compile source).code = .ok code ∧
      (ExceptT.run (loadObject (o.objectPath path) : Work (StateM (World φ)) Code) u =
          (.ok code, u) ↔
        (∀ i ∈ code, i.Fits) ∧ ¬ ListsOver w.files o (o.objectPath path) (o.objectPath path)) ∧
      (open? u.files path = .ok (.file source) ↔
        ¬ SameFile w.files (o.objectPath path) path ∧
        ¬ ListsOver w.files o (o.objectPath path) path)) ∧
    (status = 4 → u.files = w.files) := by
  obtain ⟨hzero, hnone, hfour⟩ := exit_compileFile hrun h
  refine ⟨⟨fun hstatus => ⟨u.files, hzero hstatus⟩, ?_⟩, ?_, hfour⟩
  · rintro ⟨files, source, code, hcompiled⟩
    apply Decidable.byContradiction
    intro hstatus
    exact hnone hstatus files source code hcompiled
  · intro hstatus
    obtain ⟨source, code, hcompiled⟩ := hzero hstatus
    exact ⟨source, code, hcompiled.opened, hcompiled.compiled,
      loadObject_eq_ok_iff.trans hcompiled.object_iff, hcompiled.source_iff⟩

end Run

theorem exists_saves {t : FileTree} {object : String} {p q : Path} (hobject : t.Savable object p)
    (hlisting : t.Savable (listingName object) q) (o : CompileOptions) (code : Code) :
    ∃ u, Saves t u o object code := by
  have hsave := FileTree.save_eq_iff.mpr (hobject.save (Object.write code.toList))
  by_cases hasm : o.asm = true
  · have hlist := (hlisting.put hobject.free (Object.write code.toList)).save (Listing.print code)
    exact ⟨_, _, hsave, (if_pos hasm).mpr (FileTree.save_eq_iff.mpr hlist)⟩
  · exact ⟨_, _, hsave, (if_neg hasm).mpr rfl⟩

/-- A world with one file, the source of a small program. -/
def oneSource : World FileTree := ⟨⟨[], [(["a.java"], (crowded 0 0).print)]⟩, [], [], []⟩

def compileOneSource (o : CompileOptions) : StateM (World FileTree) Nat :=
  Tool.compiler.exit (compileFile (fun _ => "") 0 o "a.java")

theorem compileOneSource_eq {o : CompileOptions} {p q : Path} (hrun : o.run = false)
    (hobject : oneSource.files.Savable (o.objectPath "a.java") p)
    (hlisting : oneSource.files.Savable (listingName (o.objectPath "a.java")) q) :
    ∃ u, compileOneSource o oneSource = (0, u) ∧
      Compiled oneSource.files u.files o "a.java" (crowded 0 0).print (Crowded.code 0 0) := by
  have hopen : open? oneSource.files "a.java" = .ok (.file (crowded 0 0).print) := rfl
  have hcode : (compile (crowded 0 0).print).code = .ok (Crowded.code 0 0) := compile_crowded 0 0
  obtain ⟨files, hsaved⟩ := exists_saves hobject hlisting o (Crowded.code 0 0)
  cases h : compileOneSource o oneSource with
  | mk status u =>
    obtain ⟨hzero, hnone, -⟩ := exit_compileFile hrun h
    have hstatus : status = 0 :=
      Decidable.byContradiction fun hne => hnone hne files _ _ ⟨hopen, hcode, hsaved⟩
    obtain ⟨source, code, hcompiled⟩ := hzero hstatus
    cases hopen.symm.trans hcompiled.opened
    cases hcode.symm.trans hcompiled.compiled
    exact ⟨u, by rw [hstatus], hcompiled⟩

/-- With a listing: three files with names of their own. -/
theorem oneSource_keeps_files :
    ∃ u, compileOneSource { asm := true } oneSource = (0, u) ∧
      ExceptT.run (loadObject "a.mJAM" : Work (StateM (World FileTree)) Code) u =
        (.ok (Crowded.code 0 0), u) ∧
      open? u.files "a.java" = .ok (.file (crowded 0 0).print) := by
  have hname : CompileOptions.objectPath { asm := true } "a.java" = "a.mJAM" := by decide +kernel
  have hobject : oneSource.files.Savable "a.mJAM" ["a.mJAM"] := ⟨by rfl, by decide, by decide⟩
  have hlisting : oneSource.files.Savable (listingName "a.mJAM") ["a.asm"] :=
    ⟨by rfl, by decide, by decide +kernel⟩
  have hpath : oneSource.files.locate "a.java" = .ok ["a.java"] := by rfl
  obtain ⟨u, hu, -⟩ :=
    compileOneSource_eq (o := { asm := true }) rfl (hname ▸ hobject) (hname ▸ hlisting)
  obtain ⟨-, hzero, -⟩ := compilation_keeps_files_iff rfl hu
  obtain ⟨source, code, hopen, hcode, hload, hsource⟩ := hzero rfl
  cases (rfl : open? oneSource.files "a.java" = .ok (.file (crowded 0 0).print)).symm.trans hopen
  cases (compile_crowded 0 0).symm.trans hcode
  rw [hname] at hload hsource
  have hfits : ∀ i ∈ Crowded.code 0 0, i.Fits := by
    simp only [← Instr.cut_eq_self_iff]
    decide
  refine ⟨u, hu, hload.mpr ⟨hfits, ?_⟩, hsource.mpr ⟨?_, ?_⟩⟩
  · rintro ⟨-, hsame⟩
    exact absurd ((FileTree.sameFile_iff hlisting.leads hobject.leads).mp hsame) (by decide)
  · intro hsame
    exact absurd ((FileTree.sameFile_iff hobject.leads hpath).mp hsame) (by decide)
  · rintro ⟨-, hsame⟩
    exact absurd ((FileTree.sameFile_iff hlisting.leads hpath).mp hsame) (by decide)

/-- An object file whose name ends in `.asm` is replaced by the listing, and a source can be named
as its own object file. -/
theorem oneSource_loses_files :
    (∃ u, compileOneSource { output := "out.asm", asm := true } oneSource = (0, u) ∧
      ExceptT.run (loadObject "out.asm" : Work (StateM (World FileTree)) Code) u ≠
        (.ok (Crowded.code 0 0), u)) ∧
    ∃ u, compileOneSource { output := "a.java" } oneSource = (0, u) ∧
      open? u.files "a.java" ≠ .ok (.file (crowded 0 0).print) := by
  constructor
  · have hname : CompileOptions.objectPath { output := "out.asm", asm := true } "a.java" =
        "out.asm" := by
      decide +kernel
    have hobject : oneSource.files.Savable "out.asm" ["out.asm"] := ⟨by rfl, by decide, by decide⟩
    have hlisting : listingName "out.asm" = "out.asm" := by decide +kernel
    obtain ⟨u, hu, hcompiled⟩ := compileOneSource_eq (o := { output := "out.asm", asm := true }) rfl
      (hname ▸ hobject) (by rw [hname, hlisting]; exact hobject)
    refine ⟨u, hu, ?_⟩
    intro hload
    rw [loadObject_eq_ok_iff, ← hname, hcompiled.object_iff, hname] at hload
    exact hload.2 ⟨rfl, ["out.asm"], hlisting ▸ hobject.leads, hobject.leads⟩
  · have hname : CompileOptions.objectPath { output := "a.java" } "a.java" = "a.java" := by
      decide +kernel
    have hobject : oneSource.files.Savable "a.java" ["a.java"] := ⟨by rfl, by decide, by decide⟩
    have hlisting : oneSource.files.Savable (listingName "a.java") ["a.asm"] :=
      ⟨by rfl, by decide, by decide +kernel⟩
    obtain ⟨u, hu, hcompiled⟩ :=
      compileOneSource_eq (o := { output := "a.java" }) rfl (hname ▸ hobject)
      (hname ▸ hlisting)
    refine ⟨u, hu, ?_⟩
    intro hsource
    rw [hcompiled.source_iff, hname] at hsource
    exact hsource.1 ⟨["a.java"], hobject.leads, hobject.leads⟩

end MiniJava.Command
