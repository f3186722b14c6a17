import MiniJava.Proofs.Generate.Crowded
import MiniJava.Proofs.Generate.Fits
import MiniJava.Proofs.Listing.Reread
/-!
Code in files. Compiled code is shown in full by its listing, and its object file keeps all its
words as long as they are numbers of 32 bits; such code can be copied from file to file, in either
format, without a change.
-/
namespace MiniJava

/-- The forms of code in a file. -/
inductive FileFormat where
  | object
  | listing
  deriving DecidableEq, Repr

namespace FileFormat

/-- What is read from a file to which code was written. -/
def copy : FileFormat → Code → Option Code
  | object, code => (Object.read (Object.write code.toList)).toOption.map List.toArray
  | listing, code => (Listing.Assembly.assemble (Listing.print code)).toOption

/-- What is left of code that is copied from file to file. -/
def copies : List FileFormat → Code → Option Code
  | [], code => some code
  | format :: formats, code => (format.copy code).bind (copies formats)

theorem copies_eq {code : Code} (h : ∀ format : FileFormat, format.copy code = some code)
    (formats : List FileFormat) : copies formats code = some code := by
  induction formats with
  | nil => rfl
  | cons format formats ih => rw [copies, h format, Option.bind_some, ih]

end FileFormat

theorem Instr.namesPrim_of {op : Op} {n : Word} {r : Reg} {d : Word} (h : op = .call → r ≠ .pb) :
    (Instr.of op n r d).NamesPrim := by
  intro hop hr
  exact absurd (Reg.number_inj.mp hr) (h (Op.number_inj.mp hop))

theorem Machine.Emitted.canonical {V : Word → Prop} {i : Instr}
    (h : Emitted V i) : i.Canonical := by
  cases h with
  | @prim p hp => cases p <;> exact ⟨by decide, by decide⟩
  | _ =>
    constructor
    · exact Instr.shown_of_iff.mpr (by simp [Op.showsCount, Op.showsReg, Op.showsDisplacement])
    · exact Instr.namesPrim_of (by simp)

namespace Program

variable {p q : Program} {source : Bytes} {entry : MethodKey} {code : Code}

theorem exists_isBuilt (h : (compile source).code = .ok code) :
    ∃ (p : Program) (entry : MethodKey), p.IsBuilt source entry code := by
  unfold compile at h
  split at h
  · cases h
  · rename_i q hq
    cases hp : q.resolve with
    | error e =>
      rw [Compile.resolve_of_error hp] at h
      cases h
    | ok p =>
      simp only [Compile.resolve_of_ok hp, Compile.check] at h
      split at h
      · rename_i herrors
        simp only [Compile.generate] at h
        split at h
        · cases h
        · rename_i code' hcode
          cases h
          cases hentry : p.check.entry with
          | none =>
            rw [hentry] at hcode
            cases hcode
          | some entry =>
            exact ⟨p, entry, ⟨q, hq, hp⟩, List.isEmpty_iff.mp herrors, hentry, hentry ▸ hcode⟩
      · cases h

/-- What is counted does not hang on the meanings of references. -/
theorem isCounted_unbound : p.unbound.IsCounted ↔ p.IsCounted := by
  constructor
  · intro h
    refine ⟨fun c hc m hm => ?_, fun c hc => ?_⟩
    · exact h.params c.unbound (List.mem_map_of_mem hc) m.unbound (List.mem_map_of_mem hm)
    · exact h.fields c.unbound (List.mem_map_of_mem hc)
  · intro h
    refine ⟨fun c hc m hm => ?_, fun c hc => ?_⟩
    · obtain ⟨c', hc', rfl⟩ := List.mem_map.mp hc
      obtain ⟨m', hm', rfl⟩ := List.mem_map.mp hm
      exact h.params c' hc' m' hm'
    · obtain ⟨c', hc', rfl⟩ := List.mem_map.mp hc
      exact h.fields c' hc'

namespace IsBuilt

theorem canonical (h : p.IsBuilt source entry code) : ∀ i ∈ code, i.Canonical := by
  intro i hi
  obtain ⟨d, hd, hlink⟩ := h.exists_draft
  obtain ⟨a, ha⟩ := Array.mem_iff_getElem?.mp hi
  exact (Program.emitted_any hd hlink ha).canonical

theorem fits (h : p.IsBuilt source entry code) (hcounted : p.IsCounted)
    (hsize : code.size < 2 ^ 31) : ∀ i ∈ code, i.Fits := by
  intro i hi
  obtain ⟨d, hd, hlink⟩ := h.exists_draft
  obtain ⟨q, hparse, hresolve⟩ := h.resolved
  obtain ⟨a, ha⟩ := Array.mem_iff_getElem?.mp hi
  refine Program.fits_code h.accepted (fun l hl => ?_) hcounted hd hlink hsize ha
  have hfit := Program.literals_of_resolve hparse hresolve l hl
  rw [Parser.maxLiteral] at hfit
  omega

end IsBuilt

end Program

/-- Compiled code is shown in full by its listing, and the listing is read back as the code. If the
program has no more parameters and instance fields than 32 bits can count, all words of the code
have 32 bits, the object file is read back as the code too, and so is the last of any chain of
files. -/
theorem compiled_code_survives {source : Bytes} {q : Program} {code : Code}
    (hparse : Program.parse source = .ok q) (hcode : (compile source).code = .ok code)
    (hsize : code.size < 2 ^ 31) :
    (∀ i ∈ code, i.Canonical) ∧ Listing.Assembly.assemble (Listing.print code) = .ok code ∧
      (q.IsCounted → (∀ i ∈ code, i.Fits) ∧
        Object.read (Object.write code.toList) = .ok code.toList ∧
        ∀ formats, FileFormat.copies formats code = some code) := by
  obtain ⟨p, entry, hbuilt⟩ := Program.exists_isBuilt hcode
  have hcanonical := hbuilt.canonical
  have hlisting : Listing.Assembly.assemble (Listing.print code) = .ok code :=
    (Listing.Assembly.assemble_print_iff fun i hi => (hcanonical i hi).1).mpr
      ⟨by omega, fun i hi => (hcanonical i hi).2⟩
  refine ⟨hcanonical, hlisting, fun hcounted => ?_⟩
  have hresolved : p.IsCounted := by
    obtain ⟨q', hq', hresolve⟩ := hbuilt.resolved
    cases hparse.symm.trans hq'
    rw [← Program.isCounted_unbound, (Program.resolve_eq_ok hresolve).1, Program.isCounted_unbound]
    exact hcounted
  have hfits := hbuilt.fits hresolved hsize
  have hobject : Object.read (Object.write code.toList) = .ok code.toList :=
    Object.read_write_eq_iff.mpr fun i hi => hfits i (Array.mem_toList_iff.mp hi)
  refine ⟨hfits, hobject, FileFormat.copies_eq fun format => ?_⟩
  cases format with
  | object => rw [FileFormat.copy, hobject]; rfl
  | listing => rw [FileFormat.copy, hlisting]; rfl

/-- A program with the greatest literal, a static and another field, parameters and locals, a loop
and a branch. -/
def keepsNumbers : Bytes :=
  ("class A \x7b static int s; int v; public static void main(String[] a) \x7b " ++
    "A o = new A(); o.v = 2147483647; while (s < 9) \x7b int t = o.f(s); s = t; \x7d \x7d " ++
      "int f(int n) \x7b if (n < 0) return v; return n; \x7d \x7d").toUTF8.toList

theorem keepsNumbers_survives :
    ∃ (q : Program) (code : Code), Program.parse keepsNumbers = .ok q ∧
      (compile keepsNumbers).code = .ok code ∧ code.size < 2 ^ 31 ∧ q.IsCounted ∧
      (∀ i ∈ code, i.Canonical) ∧ Listing.Assembly.assemble (Listing.print code) = .ok code ∧
      (∀ i ∈ code, i.Fits) ∧ Object.read (Object.write code.toList) = .ok code.toList ∧
      FileFormat.copies [.object, .listing, .listing, .object] code = some code := by
  have hpasses : (Program.parse keepsNumbers).toOption.map (fun q => (decide q.IsCounted,
      (Compile.resolve q).2.toOption.map Array.size)) = some (true, some 33) := by decide +kernel
  cases hparse : Program.parse keepsNumbers with
  | error e =>
    rw [hparse] at hpasses
    cases hpasses
  | ok q =>
    rw [hparse] at hpasses
    obtain ⟨hcounted, hcompiled⟩ := Prod.mk.inj (Option.some.inj hpasses)
    have hcode := Compile.code_of_parse hparse
    cases hresolve : (Compile.resolve q).2 with
    | error e =>
      rw [hresolve] at hcompiled
      cases hcompiled
    | ok code =>
      rw [hresolve] at hcompiled hcode
      have hcount : code.size = 33 := Option.some.inj hcompiled
      have hsize : code.size < 2 ^ 31 := by omega
      obtain ⟨hcanonical, hlisting, hobject⟩ := compiled_code_survives hparse hcode hsize
      obtain ⟨hfits, hread, hcopies⟩ := hobject (of_decide_eq_true hcounted)
      exact ⟨q, code, rfl, hcode, hsize, of_decide_eq_true hcounted, hcanonical, hlisting, hfits,
        hread, hcopies _⟩

/-- A method with 2³¹ parameters or a class with 2³¹ instance fields makes a number that the object
file loses, however short the code is. -/
theorem crowded_code_lost :
    ((compile (crowded (2 ^ 31) 0).print).code = .ok (Crowded.code (2 ^ 31) 0) ∧
      (Crowded.code (2 ^ 31) 0).size < 2 ^ 31 ∧
      Object.read (Object.write (Crowded.code (2 ^ 31) 0).toList) ≠
        .ok (Crowded.code (2 ^ 31) 0).toList) ∧
    (compile (crowded 0 (2 ^ 31)).print).code = .ok (Crowded.code 0 (2 ^ 31)) ∧
      (Crowded.code 0 (2 ^ 31)).size < 2 ^ 31 ∧
      Object.read (Object.write (Crowded.code 0 (2 ^ 31)).toList) ≠
        .ok (Crowded.code 0 (2 ^ 31)).toList :=
  ⟨⟨compile_crowded _ _, by decide, by decide⟩, compile_crowded _ _, by decide, by decide⟩

end MiniJava
