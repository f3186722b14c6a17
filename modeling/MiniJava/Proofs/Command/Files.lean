import MiniJava.Command.Host
/-!
What saving a file does to the others, as laws of a file system, and a tree of files as one that
keeps them: a file is saved where no directory stands, so that all names lead where they led before,
and only the names of this one file lead to other bytes.
-/
namespace MiniJava.Command

/-- Several names may lead to one file. A save that succeeds gives the bytes to the file under each
of its names, and leaves the other files and the ways to them as they are. -/
class LawfulFileSystem (φ : Type) [FileSystem φ] where
  SameFile : φ → String → String → Prop
  open?_save_self {t u : φ} {name : String} {bytes : Bytes} :
    FileSystem.save t name bytes = (.ok (), u) → FileSystem.open? u name = .ok (.file bytes)
  open?_save_same {t u : φ} {name other : String} {bytes x : Bytes} :
    FileSystem.save t name bytes = (.ok (), u) → SameFile t name other →
      FileSystem.open? u other = .ok (.file x) → x = bytes
  open?_save_other {t u : φ} {name other : String} {bytes x : Bytes} :
    FileSystem.save t name bytes = (.ok (), u) → ¬ SameFile t name other →
      (FileSystem.open? u other = .ok (.file x) ↔ FileSystem.open? t other = .ok (.file x))
  sameFile_save {t u : φ} {name a b : String} {bytes : Bytes} :
    FileSystem.save t name bytes = (.ok (), u) → (SameFile u a b ↔ SameFile t a b)

/-- Other bytes than those that were saved were there before, in another file. -/
theorem LawfulFileSystem.open?_save_of_ne {φ : Type} [FileSystem φ] [LawfulFileSystem φ] {t u : φ}
    {name other : String} {bytes x : Bytes} (h : FileSystem.save t name bytes = (.ok (), u))
    (hx : bytes ≠ x) :
    FileSystem.open? u other = .ok (.file x) ↔
      ¬ SameFile t name other ∧ FileSystem.open? t other = .ok (.file x) := by
  by_cases hsame : SameFile t name other
  · constructor
    · intro hfile
      exact absurd (open?_save_same h hsame hfile).symm hx
    · rintro ⟨hother, -⟩
      exact absurd hsame hother
  · rw [open?_save_other h hsame]
    exact ⟨fun hfile => ⟨hsame, hfile⟩, And.right⟩

namespace FileTree

variable {t u : FileTree} {p q : Path} {bytes x : Bytes} {name other : String}

theorem lookup_put :
    (t.put p bytes).files.lookup q = if q = p then some bytes else t.files.lookup q := by
  have hfilter (hne : q ≠ p) (files : List (Path × Bytes)) :
      (files.filter (·.1 != p)).lookup q = files.lookup q := by
    induction files with
    | nil => rfl
    | cons f files ih =>
      obtain ⟨r, b⟩ := f
      by_cases hr : r = p
      · subst hr
        have hother : (q == r) = false := beq_eq_false_iff_ne.mpr hne
        rw [List.filter_cons_of_neg (by simp), ih, List.lookup_cons, hother]
      · rw [List.filter_cons_of_pos (by simpa using hr), List.lookup_cons, List.lookup_cons, ih]
  by_cases hq : q = p
  · subst hq
    rw [put, List.lookup_cons_self, if_pos rfl]
  · have hother : (q == p) = false := beq_eq_false_iff_ne.mpr hq
    rw [put, List.lookup_cons, hother, if_neg hq]
    exact hfilter hq t.files

theorem entry?_put :
    entry? (t.put p bytes) q = if q = p then some (.file bytes) else t.entry? q := by
  unfold entry?
  rw [lookup_put]
  by_cases hq : q = p
  · rw [if_pos hq, if_pos hq]
  · rw [if_neg hq, if_neg hq]
    rfl

/-- A way that leads through directories is not blocked by a file that stands where none of them
does. -/
theorem walk_put (hp : t.entry? p ≠ some .directory) (here : Path) (parts : List String) :
    (t.put p bytes).walk here parts = .ok q ↔ t.walk here parts = .ok q := by
  induction parts generalizing here with
  | nil => rfl
  | cons part rest ih =>
    rw [walk, walk]
    split
    · exact ih here
    · split
      · exact ih _
      · split
        · rfl
        · split
          · rfl
          · rw [entry?_put]
            by_cases hstep : here ++ [part] = p
            · -- The way is blocked, now by the new file.
              rw [if_pos hstep, hstep]
              cases hentry : t.entry? p with
              | none => simp
              | some e =>
                cases e with
                | file b => simp
                | directory => exact absurd hentry hp
            · rw [if_neg hstep]
              cases t.entry? (here ++ [part]) with
              | none => rfl
              | some e =>
                cases e with
                | file b => rfl
                | directory => exact ih _

theorem locate_put (hp : t.entry? p ≠ some .directory) :
    (t.put p bytes).locate name = .ok q ↔ t.locate name = .ok q := by
  unfold locate
  split
  · rfl
  · exact walk_put hp [] _

theorem open?_eq_file_iff :
    t.open? name = .ok (.file bytes) ↔ ∃ p, t.locate name = .ok p ∧ t.files.lookup p = some bytes ∧
      FileName.endsWithSlash name = false := by
  have hentry (p : Path) : t.entry? p = some (.file bytes) ↔ t.files.lookup p = some bytes := by
    unfold entry?
    cases t.files.lookup p with
    | none =>
      dsimp only
      split <;> simp
    | some b => simp
  simp only [← hentry]
  unfold open?
  cases t.locate name with
  | error fault => simp [bind, Except.bind]
  | ok p =>
    cases FileName.endsWithSlash name <;> cases hp : t.entry? p with
    | none => simp [bind, Except.bind, hp]
    | some e => cases e <;> simp [bind, Except.bind, hp]

theorem save_eq_ok_iff :
    t.save name bytes = .ok u ↔ ∃ p, t.locate name = .ok p ∧ t.entry? p ≠ some .directory ∧
      FileName.endsWithSlash name = false ∧ u = t.put p bytes := by
  unfold save
  cases t.locate name with
  | error fault => simp [bind, Except.bind]
  | ok p =>
    cases FileName.endsWithSlash name <;> cases hentry : t.entry? p with
    | none => simp [bind, Except.bind, hentry, eq_comm]
    | some e => cases e <;> simp [bind, Except.bind, hentry, eq_comm]

/-- The name leads to a place where a file can be saved. -/
structure Savable (t : FileTree) (name : String) (p : Path) : Prop where
  leads : t.locate name = .ok p
  free : t.entry? p ≠ some .directory
  plain : FileName.endsWithSlash name = false

theorem Savable.save (h : t.Savable name p)
    (bytes : Bytes) : t.save name bytes = .ok (t.put p bytes) :=
  save_eq_ok_iff.mpr ⟨p, h.leads, h.free, h.plain, rfl⟩

theorem Savable.put (h : t.Savable name q) (hp : t.entry? p ≠ some .directory) (bytes : Bytes) :
    (t.put p bytes).Savable name q where
  leads := (locate_put hp).mpr h.leads
  free := by
    rw [entry?_put]
    split
    · simp
    · exact h.free
  plain := h.plain

/-- The names lead to the same place. -/
def SameFile (t : FileTree) (a b : String) : Prop := ∃ p, t.locate a = .ok p ∧ t.locate b = .ok p

theorem sameFile_iff {a b : String} (ha : t.locate a = .ok p)
    (hb : t.locate b = .ok q) : t.SameFile a b ↔ p = q := by
  constructor
  · rintro ⟨r, har, hbr⟩
    exact Except.ok.inj (ha.symm.trans (har.trans (hbr.symm.trans hb)))
  · rintro rfl
    exact ⟨p, ha, hb⟩

theorem sameFile_save {a b : String}
    (h : t.save name bytes = .ok u) : u.SameFile a b ↔ t.SameFile a b := by
  obtain ⟨p, -, hp, -, rfl⟩ := save_eq_ok_iff.mp h
  unfold SameFile
  simp only [locate_put hp]

theorem open?_save_same (h : t.save name bytes = .ok u) (hsame : t.SameFile name other) :
    u.open? other = .ok (.file x) ↔ FileName.endsWithSlash other = false ∧ x = bytes := by
  obtain ⟨p, hname, hp, -, rfl⟩ := save_eq_ok_iff.mp h
  obtain ⟨q, hq, hother⟩ := hsame
  cases hname.symm.trans hq
  rw [open?_eq_file_iff]
  simp only [locate_put hp, lookup_put]
  constructor
  · rintro ⟨q, hq, hfile, hslash⟩
    cases hother.symm.trans hq
    rw [if_pos rfl] at hfile
    exact ⟨hslash, (Option.some.inj hfile).symm⟩
  · rintro ⟨hslash, rfl⟩
    exact ⟨p, hother, if_pos rfl, hslash⟩

theorem open?_save_other (h : t.save name bytes = .ok u) (hother : ¬ t.SameFile name other) :
    u.open? other = .ok (.file x) ↔ t.open? other = .ok (.file x) := by
  obtain ⟨p, hname, hp, -, rfl⟩ := save_eq_ok_iff.mp h
  rw [open?_eq_file_iff, open?_eq_file_iff]
  simp only [locate_put hp, lookup_put]
  have hne (q : Path) (hq : t.locate other = .ok q) : q ≠ p := by
    rintro rfl
    exact hother ⟨q, hname, hq⟩
  constructor
  · rintro ⟨q, hq, hfile, hslash⟩
    rw [if_neg (hne q hq)] at hfile
    exact ⟨q, hq, hfile, hslash⟩
  · rintro ⟨q, hq, hfile, hslash⟩
    exact ⟨q, hq, (if_neg (hne q hq)).trans hfile, hslash⟩

theorem save_eq_iff : FileSystem.save t name bytes = (.ok (), u) ↔ t.save name bytes = .ok u := by
  simp only [FileSystem.save]
  cases t.save name bytes with
  | ok v => simp
  | error fault => simp

instance : LawfulFileSystem FileTree where
  SameFile := SameFile
  open?_save_self h := by
    obtain ⟨p, hname, -, hslash, -⟩ := save_eq_ok_iff.mp (save_eq_iff.mp h)
    exact (open?_save_same (save_eq_iff.mp h) ⟨p, hname, hname⟩).mpr ⟨hslash, rfl⟩
  open?_save_same h hsame hfile := ((open?_save_same (save_eq_iff.mp h) hsame).mp hfile).2
  open?_save_other h hother := open?_save_other (save_eq_iff.mp h) hother
  sameFile_save h := sameFile_save (save_eq_iff.mp h)

end FileTree

end MiniJava.Command
