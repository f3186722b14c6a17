import MiniJava.Proofs.Generate.Complete
import MiniJava.Proofs.Simulation.State
/-!
What names stand for, as the layout, the generator and the evaluator look them up: the three agree.
-/
namespace MiniJava

open Generate Semantics

variable {p : Program}

theorem eq_of_nodup_map {α β : Type} {f : α → β} {xs : List α} (h : (xs.map f).Nodup) {a b : α}
    (ha : a ∈ xs) (hb : b ∈ xs) (hab : f a = f b) : a = b := by
  induction xs with
  | nil => cases ha
  | cons x xs ih =>
    obtain ⟨hx, hxs⟩ := List.nodup_cons.mp h
    rcases List.mem_cons.mp ha with rfl | ha' <;> rcases List.mem_cons.mp hb with rfl | hb'
    · rfl
    · exact absurd (List.mem_map.mpr ⟨b, hb', hab.symm⟩) hx
    · exact absurd (List.mem_map.mpr ⟨a, ha', hab⟩) hx
    · exact ih hxs ha' hb'

namespace Program.Bound

variable (hp : p.Bound)

include hp

theorem find?_head {c : ClassHead} (hc : c ∈ p.heads) :
    p.heads.find? (·.name == c.name) = some c := by
  have hsome : (p.heads.find? (·.name == c.name)).isSome := by
    rw [List.find?_isSome]
    exact ⟨c, hc, by simp⟩
  obtain ⟨d, hd⟩ := Option.isSome_iff_exists.mp hsome
  rw [hd,
    eq_of_nodup_map hp.classNames (List.mem_of_find?_eq_some hd) hc
    (by simpa using List.find?_some hd)]

theorem instanceField {E : Setting} (hE : E.classes = p.heads) {owner : String} {f : Field}
    (hf : E.HasField owner f) (hstatic : f.isStatic = false) :
    ∃ i, p.classLayouts.field? owner f.name = some ⟨i, false⟩ ∧
      fieldSlot? p.heads owner f.name = some i ∧
      cellTy? p.heads (.object owner) i = some f.type.ty := by
  obtain ⟨c, hc, rfl, hf⟩ := hf
  rw [hE] at hc
  obtain ⟨i, hplace, hslot, hget⟩ := hp.laid.instanceField c hc f hf hstatic
  refine ⟨i, hplace, ?_, ?_⟩
  · simp [fieldSlot?, hp.find?_head hc, hslot]
  · simp only [cellTy?, hp.find?_head hc, Option.bind_eq_bind, Option.bind_some, hget]

theorem staticField {E : Setting} (hE : E.classes = p.heads) {owner : String} {f : Field}
    (hf : E.HasField owner f) (hstatic : f.isStatic = true) :
    ∃ i, p.classLayouts.field? owner f.name = some ⟨i, true⟩ ∧
      staticSlot? p.heads owner f.name = some i ∧ (staticFields p.heads)[i]? = some (owner, f) := by
  obtain ⟨c, hc, rfl, hf⟩ := hf
  exact hp.laid.staticField c (hE ▸ hc) f hf hstatic

theorem classSize {E : Setting} (hE : E.classes = p.heads) {name : String} (hc : E.HasClass name) :
    ∃ layout, p.classLayouts.find? name = some layout ∧
      fieldCount? p.heads name = some layout.size := by
  obtain ⟨c, hc, rfl⟩ := hc
  rw [hE] at hc
  obtain ⟨layout, hlayout, hsize⟩ := hp.laid.size c hc
  exact ⟨layout, hlayout, by simp [fieldCount?, hp.find?_head hc, hsize]⟩

theorem method_unique {E : Setting} (hE : E.classes = p.heads) {owner : String} {m m' : Signature}
    (hm : E.HasMethod owner m) (hm' : E.HasMethod owner m')
    (hname : m.name = m'.name) : m = m' := by
  obtain ⟨c, hc, rfl, hm⟩ := hm
  obtain ⟨d, hd, howner, hm'⟩ := hm'
  rw [hE] at hc hd
  cases eq_of_nodup_map hp.classNames hc hd howner.symm
  exact eq_of_nodup_map (List.nodup_append.mp (hp.memberNames c hc)).2.1 hm hm' hname

end Program.Bound

theorem Program.hasMethod_of_mem {E : Setting} (hE : E.classes = p.heads) {x : String × Method}
    (hx : x ∈ p.methods) :
    ∃ c ∈ p.classes, c.name = x.1 ∧ x.2 ∈ c.methods ∧ E.HasMethod x.1 x.2.toSignature := by
  obtain ⟨c, hc, hx⟩ := List.mem_flatMap.mp hx
  obtain ⟨m, hm, rfl⟩ := List.mem_map.mp hx
  refine ⟨c, hc, rfl, hm, c.head, ?_, rfl, List.mem_map_of_mem hm⟩
  rw [hE]
  exact List.mem_map_of_mem (List.mem_append_left _ hc)

theorem Program.method?_eq_some {key : MethodKey} {m : Method} (h : p.method? key = some m) :
    (key.owner, m) ∈ p.methods ∧ m.name = key.name := by
  obtain ⟨⟨owner, m⟩, hx, rfl⟩ := Option.map_eq_some_iff.mp h
  have hkey := List.find?_some hx
  simp only [beq_iff_eq] at hkey
  subst hkey
  exact ⟨List.mem_of_find?_eq_some hx, rfl⟩

theorem Program.Bound.exists_method? (hp : p.Bound) {E : Setting} (hE : E.classes = p.heads)
    {owner : String} {m : Signature} (hm : E.HasMethod owner m)
    (hprint : isPrintln owner m = false) :
    ∃ method, p.method? ⟨owner, m.name⟩ = some method ∧ method.toSignature = m := by
  obtain ⟨x, hx, hkey⟩ := @Program.exists_method p E hE ⟨owner, m.name⟩ m hm rfl hprint
  have hsome :
      (p.methods.find? fun x => (⟨x.1, x.2.name⟩ : MethodKey) == ⟨owner, m.name⟩).isSome := by
    rw [List.find?_isSome]
    exact ⟨x, hx, by simp [hkey]⟩
  obtain ⟨y, hy⟩ := Option.isSome_iff_exists.mp hsome
  have hfound : p.method? ⟨owner, m.name⟩ = some y.2 := by rw [Program.method?, hy]; rfl
  obtain ⟨hmem, hname⟩ := Program.method?_eq_some hfound
  obtain ⟨-, -, -, -, hdeclared⟩ := Program.hasMethod_of_mem hE hmem
  exact ⟨y.2, hfound, hp.method_unique hE hdeclared hm hname⟩

/-- The method that prints takes a number and has no result. -/
theorem Program.Bound.println_eq (hp : p.Bound) {E : Setting} (hE : E.classes = p.heads)
    {owner : String} {m : Signature} (hm : E.HasMethod owner m)
    (hprint : isPrintln owner m = true) : m = Library.println.toSignature := by
  simp only [isPrintln, Bool.and_eq_true, beq_iff_eq] at hprint
  have hlibrary : E.HasMethod owner Library.println.toSignature := by
    refine ⟨Library.printStream.head, ?_, hprint.1.symm, List.mem_map_of_mem List.mem_cons_self⟩
    rw [hE]
    exact List.mem_map_of_mem (List.mem_append_right _ (List.mem_cons_of_mem _ List.mem_cons_self))
  exact hp.method_unique hE hm hlibrary hprint.2

theorem Program.Accepted.params_storable (hp : p.Accepted) {E : Setting}
    (hE : E.classes = p.heads) {owner : String} {m : Signature} (hm : E.HasMethod owner m) :
    ∀ v ∈ m.params, v.type.ty.isStorable = true := by
  obtain ⟨c, hc, -, hm⟩ := hm
  rw [hE] at hc
  obtain ⟨d, hd, rfl⟩ := List.mem_map.mp hc
  obtain ⟨method, hmethod, rfl⟩ := List.mem_map.mp hm
  rcases List.mem_append.mp hd with hd | hd
  · exact (hp.admitted d hd).params method hmethod
  · simp only [Library.classes, List.mem_cons, List.not_mem_nil, or_false] at hd
    rcases hd with rfl | rfl | rfl
    · cases hmethod
    · cases List.mem_singleton.mp hmethod
      decide
    · cases hmethod

theorem Program.Accepted.field_storable (hp : p.Accepted) {E : Setting} (hE : E.classes = p.heads)
    {owner : String} {f : Field} (hf : E.HasField owner f) : f.type.ty.isStorable = true := by
  obtain ⟨c, hc, -, hf⟩ := hf
  rw [hE] at hc
  obtain ⟨d, hd, rfl⟩ := List.mem_map.mp hc
  rcases List.mem_append.mp hd with hd | hd
  · exact (hp.admitted d hd).fields f hf
  · simp only [Library.classes, List.mem_cons, List.not_mem_nil, or_false] at hd
    rcases hd with rfl | rfl | rfl
    · cases List.mem_singleton.mp hf
      decide
    · cases hf
    · cases hf

theorem Ty.ne_void_of_storable {t : Ty} (h : t.isStorable = true) : t ≠ .void := by
  rintro rfl
  cases h

/-- A location that is not of type void never takes a value of type void. -/
theorem Ty.Accepts.ne_void {t u : Ty} (ht : t ≠ .void) (h : t.Accepts u) : u ≠ .void := by
  cases h with
  | same => exact ht
  | null => nofun

theorem BinaryOp.HasTy.operands_ne_void {op : BinaryOp} {tl tr t : Ty} (h : op.HasTy tl tr t) :
    tl ≠ .void ∧ tr ≠ .void := by
  have hreference {u : Ty} (hu : u.isReference = true) : u ≠ .void := by
    rintro rfl
    cases hu
  cases h with
  | arithmetic | order | logic => exact ⟨nofun, nofun⟩
  | equality _ hne => exact ⟨hne, hne⟩
  | nullRight _ hu => exact ⟨hreference hu, nofun⟩
  | nullLeft _ hu => exact ⟨nofun, hreference hu⟩

theorem BinaryOp.HasTy.eq_boolean {op : BinaryOp} {tl tr t : Ty} (h : op.HasTy tl tr t)
    (hop : op ∈ [and, or]) : tl = .boolean ∧ tr = .boolean ∧ t = .boolean := by
  cases h <;> simp_all <;> rcases hop with rfl | rfl <;> simp_all

theorem Setting.Binds.hasMethod {E : Setting} {vars : List Local} {r : Ref} {owner : String}
    {m : Signature} (h : E.Binds vars r (.method owner m)) : E.HasMethod owner m := by
  cases h with
  | method hm _ => exact hm
  | memberMethod _ _ _ hm _ => exact hm

end MiniJava
