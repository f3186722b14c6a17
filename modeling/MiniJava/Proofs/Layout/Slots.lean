import MiniJava.Layout.Classes
import MiniJava.Proofs.Scope.Setting
/-!
Where the layout of classes puts fields. Static fields are numbered through all classes and instance
fields within their class, and the place of a field is its number.
-/
namespace MiniJava

/-- The static fields of a class, or its instance fields. -/
def ClassHead.fieldsOf (c : ClassHead) (static : Bool) : List Field :=
  c.fields.filter (·.isStatic == static)

/-- The static fields of all classes with the names of their classes. -/
def staticFields (cs : List ClassHead) : List (String × Field) :=
  cs.flatMap fun c => (c.fieldsOf true).map fun f => (c.name, f)

/-- The number of a static field. -/
def staticSlot? (cs : List ClassHead) (owner name : String) : Option Nat :=
  (staticFields cs).findIdx? fun x => x.1 == owner && x.2.name == name

/-- The number of an instance field within its class. -/
def ClassHead.slot? (c : ClassHead) (name : String) : Option Nat :=
  (c.fieldsOf false).findIdx? (·.name == name)

/-- A field takes the next number of its own kind. -/
theorem ClassLayout.place_cons (statics size : Nat) (g : Field) (fs : List Field) :
    place statics size (g :: fs) = (g.name, ⟨if g.isStatic then statics else size, g.isStatic⟩) ::
      place (if g.isStatic then statics + 1 else statics) (if g.isStatic then size else size + 1)
      fs := by
  cases hs : g.isStatic <;> simp [place, hs]

theorem ClassLayout.lookup_place {fs : List Field} (hnames : (fs.map (·.name)).Nodup) {f : Field}
    (hf : f ∈ fs) (statics size : Nat) :
    ∃ i, (place statics size fs).lookup f.name =
        some ⟨(if f.isStatic then statics else size) + i, f.isStatic⟩ ∧
      (fs.filter (·.isStatic == f.isStatic)).findIdx? (·.name == f.name) = some i ∧
      (fs.filter (·.isStatic == f.isStatic))[i]? = some f := by
  induction fs generalizing statics size with
  | nil => cases hf
  | cons g fs ih =>
    obtain ⟨hg, hnames⟩ := List.nodup_cons.mp hnames
    rw [place_cons, List.lookup_cons]
    rcases List.mem_cons.mp hf with rfl | hf
    · exact ⟨0, by simp, by simp [List.findIdx?_cons], by simp⟩
    · have hne : (f.name == g.name) = false :=
        beq_eq_false_iff_ne.mpr fun h => hg (List.mem_map.mpr ⟨f, hf, h⟩)
      obtain ⟨i, hplace, hidx, hget⟩ := ih hnames hf (if g.isStatic then statics + 1 else statics)
        (if g.isStatic then size else size + 1)
      rw [hne, hplace]
      -- A field of the same kind as `f` takes the number before it, any other field none.
      by_cases hkind : g.isStatic = f.isStatic
      · rw [List.filter_cons, if_pos (beq_iff_eq.mpr hkind), hkind]
        refine ⟨i + 1, ?_, ?_, hget⟩
        · cases f.isStatic <;> simp [Nat.add_assoc, Nat.add_comm 1]
        · rw [List.findIdx?_cons, BEq.comm, hne, hidx]
          rfl
      · have hskip : ¬(g.isStatic == f.isStatic) = true := mt beq_iff_eq.mp hkind
        rw [List.filter_cons, if_neg hskip, Bool.eq_not_of_ne hkind]
        refine ⟨i, ?_, hidx, hget⟩
        cases f.isStatic <;> simp

namespace ClassLayouts

variable {cs : List ClassDecl} {c : ClassDecl}

theorem find?_of (hnames : (cs.map (·.name)).Nodup) (hc : c ∈ cs) (statics : Nat) :
    ∃ before, (of statics cs).find? c.name = some (.of (statics + before) c) := by
  induction cs generalizing statics with
  | nil => cases hc
  | cons d cs ih =>
    obtain ⟨hd, hnames⟩ := List.nodup_cons.mp hnames
    rcases List.mem_cons.mp hc with rfl | hc
    · exact ⟨0, by simp [of, find?, ClassLayout.of]⟩
    · have hne : (d.name == c.name) = false := by
        simp only [beq_eq_false_iff_ne]
        exact fun h => hd (List.mem_map.mpr ⟨c, hc, h.symm⟩)
      obtain ⟨before, hfind⟩ := ih hnames hc (statics + d.staticCount)
      refine ⟨d.staticCount + before, ?_⟩
      simp only [find?, of, ClassLayout.of, List.find?_cons, hne] at hfind ⊢
      rw [hfind, Nat.add_assoc]

theorem find?_size (hnames : (cs.map (·.name)).Nodup) (hc : c ∈ cs) (statics : Nat) :
    ∃ layout, (of statics cs).find? c.name = some layout ∧
      layout.size = (c.head.fieldsOf false).length := by
  obtain ⟨before, hfind⟩ := find?_of hnames hc statics
  refine ⟨_, hfind, ?_⟩
  simp only [ClassLayout.of, ClassHead.fieldsOf, ClassDecl.head, List.countP_eq_length_filter]
  congr 2
  funext f
  cases f.isStatic <;> rfl

theorem field?_instance (hnames : (cs.map (·.name)).Nodup) (hc : c ∈ cs)
    (hmembers : (c.fields.map (·.name)).Nodup) {f : Field} (hf : f ∈ c.fields)
    (hs : f.isStatic = false) (statics : Nat) :
    ∃ i, (of statics cs).field? c.name f.name = some ⟨i, false⟩ ∧ c.head.slot? f.name = some i ∧
      (c.head.fieldsOf false)[i]? = some f := by
  obtain ⟨before, hfind⟩ := find?_of hnames hc statics
  obtain ⟨i, hplace, hidx, hget⟩ := ClassLayout.lookup_place hmembers hf (statics + before) 0
  rw [hs] at hplace hidx hget
  refine ⟨i, ?_, hidx, hget⟩
  simpa [field?, hfind, ClassLayout.of] using hplace

theorem field?_static (hnames : (cs.map (·.name)).Nodup) (hc : c ∈ cs)
    (hmembers : (c.fields.map (·.name)).Nodup) {f : Field} (hf : f ∈ c.fields)
    (hs : f.isStatic = true) (statics : Nat) :
    ∃ i, (of statics cs).field? c.name f.name = some ⟨statics + i, true⟩ ∧
      staticSlot? (cs.map (·.head)) c.name f.name = some i ∧
      (staticFields (cs.map (·.head)))[i]? = some (c.name, f) := by
  induction cs generalizing statics with
  | nil => cases hc
  | cons d cs ih =>
    obtain ⟨hd, hnames⟩ := List.nodup_cons.mp hnames
    have hkeys : staticFields ((d :: cs).map (·.head)) =
        (d.head.fieldsOf true).map (fun f => (d.name, f)) ++ staticFields (cs.map (·.head)) := by
      simp [staticFields, ClassDecl.head]
    rcases List.mem_cons.mp hc with rfl | hc
    · obtain ⟨i, hplace, hidx, hget⟩ := ClassLayout.lookup_place hmembers hf statics 0
      rw [hs] at hplace hidx hget
      refine ⟨i, ?_, ?_, ?_⟩
      · simpa [field?, of, find?, ClassLayout.of] using hplace
      · rw [staticSlot?, hkeys, List.findIdx?_append, List.findIdx?_map]
        simp only [Function.comp_def, BEq.rfl, Bool.true_and]
        rw [ClassHead.fieldsOf, ClassDecl.head, hidx]
        rfl
      · have hi := (List.getElem?_eq_some_iff.mp hget).1
        rw [hkeys,
          List.getElem?_append_left (by simpa [ClassHead.fieldsOf, ClassDecl.head] using hi)]
        simpa [ClassHead.fieldsOf, ClassDecl.head] using hget
    · have hne : d.name ≠ c.name := fun h => hd (List.mem_map.mpr ⟨c, hc, h.symm⟩)
      obtain ⟨i, hplace, hidx, hget⟩ := ih hnames hc (statics + d.staticCount)
      have hcount : (d.head.fieldsOf true).length = d.staticCount := by
        simp [ClassHead.fieldsOf, ClassDecl.head, ClassDecl.staticCount,
          List.countP_eq_length_filter]
      refine ⟨d.staticCount + i, ?_, ?_, ?_⟩
      · simp only [field?, of, find?, ClassLayout.of, List.find?_cons, beq_eq_false_iff_ne.mpr hne]
          at hplace ⊢
        rw [hplace, Nat.add_assoc]
      · rw [staticSlot?, hkeys, List.findIdx?_append, List.findIdx?_map,
          List.findIdx?_eq_none_iff.mpr (by simp [hne])]
        rw [staticSlot?] at hidx
        simp [hidx, hcount, Nat.add_comm]
      · rw [hkeys, List.getElem?_append_right (by simp [hcount])]
        simpa [hcount] using hget

end ClassLayouts

/-- Layouts that give each class its size and each field its number. -/
structure Laid (cs : List ClassHead) (layouts : ClassLayouts) : Prop where
  size : ∀ c ∈ cs, ∃ layout, layouts.find? c.name = some layout ∧
    layout.size = (c.fieldsOf false).length
  instanceField : ∀ c ∈ cs, ∀ f ∈ c.fields, f.isStatic = false → ∃ i,
    layouts.field? c.name f.name = some ⟨i, false⟩ ∧ c.slot? f.name = some i ∧
      (c.fieldsOf false)[i]? = some f
  staticField : ∀ c ∈ cs, ∀ f ∈ c.fields, f.isStatic = true → ∃ i,
    layouts.field? c.name f.name = some ⟨i, true⟩ ∧ staticSlot? cs c.name f.name = some i ∧
      (staticFields cs)[i]? = some (c.name, f)

theorem Program.Bound.laid {p : Program} (hp : p.Bound) : Laid p.heads p.classLayouts := by
  have hnames : (p.allClasses.map (·.name)).Nodup := by
    simpa [Program.heads, Function.comp_def, ClassDecl.head] using hp.classNames
  have hfields (c : ClassDecl) (hc : c ∈ p.allClasses) : (c.fields.map (·.name)).Nodup :=
    (List.nodup_append.mp (hp.memberNames c.head (List.mem_map_of_mem hc))).1
  refine ⟨?_, ?_, ?_⟩
  · intro c hc
    obtain ⟨d, hd, rfl⟩ := List.mem_map.mp hc
    exact ClassLayouts.find?_size hnames hd 0
  · intro c hc f hf hs
    obtain ⟨d, hd, rfl⟩ := List.mem_map.mp hc
    exact ClassLayouts.field?_instance hnames hd (hfields d hd) hf hs 0
  · intro c hc f hf hs
    obtain ⟨d, hd, rfl⟩ := List.mem_map.mp hc
    obtain ⟨i, hfield, hslot⟩ := ClassLayouts.field?_static hnames hd (hfields d hd) hf hs 0
    exact ⟨i, by rw [Nat.zero_add] at hfield; exact hfield, hslot⟩

namespace Laid

variable {E : Setting} {layouts : ClassLayouts}

theorem hasClass (h : Laid E.classes layouts) {name : String} (hc : E.HasClass name) :
    ∃ layout, layouts.find? name = some layout := by
  obtain ⟨c, hc, rfl⟩ := hc
  obtain ⟨layout, hlayout, -⟩ := h.size c hc
  exact ⟨layout, hlayout⟩

theorem hasField (h : Laid E.classes layouts) {owner : String} {f : Field}
    (hf : E.HasField owner f) : ∃ i, layouts.field? owner f.name = some ⟨i, f.isStatic⟩ := by
  obtain ⟨c, hc, rfl, hf⟩ := hf
  cases hs : f.isStatic with
  | false =>
    obtain ⟨i, hi, -⟩ := h.instanceField c hc f hf hs
    exact ⟨i, hi⟩
  | true =>
    obtain ⟨i, hi, -⟩ := h.staticField c hc f hf hs
    exact ⟨i, hi⟩

end Laid

end MiniJava
