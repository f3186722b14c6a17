import Mathlib.Data.List.Perm.Basic
import MiniJava.Proofs.Order.Resolve
/-!
Programs that differ in the order of their declarations. Names are all different where names are
declared, so the same names are found in any order, and a program that can be resolved can be
resolved in any order.
-/
namespace MiniJava

/-- A class and the same class with its fields in another order, and its methods. -/
structure ClassDecl.Rearranges (c d : ClassDecl) : Prop where
  id : c.id = d.id
  span : c.span = d.span
  fields : c.fields.Perm d.fields
  methods : c.methods.Perm d.methods

/-- A program and a program of the same classes in another order, each of them rearranged. -/
def Program.Rearranges (p q : Program) : Prop :=
  ∃ cs, List.Forall₂ ClassDecl.Rearranges p.classes cs ∧ cs.Perm q.classes

namespace ClassDecl.Rearranges

variable {c d : ClassDecl}

theorem symm (h : c.Rearranges d) : d.Rearranges c :=
  ⟨h.id.symm, h.span.symm, h.fields.symm, h.methods.symm⟩

theorem name_eq (h : c.Rearranges d) : c.name = d.name := congrArg Ident.name h.id

theorem memberMeanings (h : c.Rearranges d) :
    (Resolve.memberMeanings c).Perm (Resolve.memberMeanings d) := by
  rw [Resolve.memberMeanings, Resolve.memberMeanings, h.name_eq]
  exact (h.fields.map _).append (h.methods.map _)

end ClassDecl.Rearranges

namespace Program.Rearranges

variable {p q : Program}

theorem symm (h : p.Rearranges q) : q.Rearranges p := by
  obtain ⟨cs, hcs, hperm⟩ := h
  have hback : List.Forall₂ ClassDecl.Rearranges cs p.classes := hcs.flip.imp fun _ _ h => h.symm
  exact List.perm_comp_forall₂ hperm.symm hback

/-- What the classes contribute in any order, each in any order, is the same up to order. -/
theorem flatMap {α : Type} {f : ClassDecl → List α} (h : p.Rearranges q)
    (hf : ∀ c d : ClassDecl, c.Rearranges d → (f c).Perm (f d)) :
    (p.classes.flatMap f).Perm (q.classes.flatMap f) := by
  obtain ⟨cs, hcs, hperm⟩ := h
  refine List.Perm.trans ?_ (hperm.flatMap_right f)
  clear hperm
  generalize p.classes = ps at hcs
  induction hcs with
  | nil => exact .refl _
  | cons hcd _ ih =>
    rw [List.flatMap_cons, List.flatMap_cons]
    exact (hf _ _ hcd).append ih

theorem exists_mem (h : p.Rearranges q) {c : ClassDecl}
    (hc : c ∈ p.classes) : ∃ d ∈ q.classes, c.Rearranges d := by
  obtain ⟨cs, hcs, hperm⟩ := h
  have hmem : ∃ d ∈ cs, c.Rearranges d := by
    clear hperm
    generalize p.classes = ps at hcs hc
    induction hcs with
    | nil => cases hc
    | cons hcd _ ih =>
      rcases List.mem_cons.mp hc with rfl | hc
      · exact ⟨_, List.mem_cons_self, hcd⟩
      · obtain ⟨d, hd, hcd⟩ := ih hc
        exact ⟨d, List.mem_cons_of_mem _ hd, hcd⟩
  obtain ⟨d, hd, hcd⟩ := hmem
  exact ⟨d, hperm.subset hd, hcd⟩

theorem classEntries (h : p.Rearranges q) :
    (Resolve.classEntries p.classes).Perm (Resolve.classEntries q.classes) := by
  rw [Resolve.classEntries, Resolve.classEntries, List.map_eq_flatMap, List.map_eq_flatMap]
  refine h.flatMap fun c d hcd => ?_
  rw [hcd.name_eq]

end Program.Rearranges

namespace Resolve

/-! ### Different names in any order -/

theorem find?_eq_of_perm {α : Type} {key : α → String} {xs ys : List α} (hperm : xs.Perm ys)
    (hnames : (xs.map key).Nodup) (name : String) :
    xs.find? (key · == name) = ys.find? (key · == name) := by
  ext x
  rw [find?_eq_some_of_nodup hnames, find?_eq_some_of_nodup ((hperm.map key).nodup_iff.mp hnames),
    hperm.mem_iff]

theorem lookup_eq_of_perm {level level' : Level Meaning} (hperm : level.Perm level')
    (hnames : (level.map (·.1)).Nodup)
    (name : String) : level.lookup name = level'.lookup name := by
  ext d
  rw [lookup_eq_some_of_nodup hnames,
    lookup_eq_some_of_nodup ((hperm.map (·.1)).nodup_iff.mp hnames), hperm.mem_iff]

section Declaring

variable {scopes scopes' : Scopes Meaning} {level level' : Level Meaning}
  {outer outer' : List (Level Meaning)}

theorem Holds.agrees (h : Holds scopes level outer) (h' : Holds scopes' level' outer')
    (hperm : level.Perm level')
    (houter : (Scopes.mk outer none).Agrees ⟨outer', none⟩) : scopes.Agrees scopes' := by
  obtain ⟨rfl, -, hnames⟩ := h
  obtain ⟨rfl, -, -⟩ := h'
  have hlookup : (fun name => level.lookup name) = fun name => level'.lookup name :=
    funext (lookup_eq_of_perm hperm hnames)
  exact ⟨congrArg₂ List.cons hlookup houter.lookups, rfl⟩

/-- A name can be declared if it is new, whatever names are to be declared after it. -/
theorem Holds.exists_enter {name : String} {d : Meaning} {later : Level Meaning}
    (h : Holds scopes level outer) (hnames : ((later ++ (name, d) :: level).map (·.1)).Nodup) :
    ∃ scopes', scopes.enter name d = .ok (some scopes') := by
  obtain ⟨rfl, hs, -⟩ := h
  have hnew : name ∉ level.map (·.1) := by
    rw [List.map_append, List.map_cons] at hnames
    exact (List.nodup_cons.mp (List.nodup_append.mp hnames).2.1).1
  have hnone : level.lookup name = none := by
    refine List.lookup_eq_none_iff.mpr fun x hx => ?_
    have hne : name ≠ x.1 := fun heq => hnew (heq ▸ List.mem_map_of_mem hx)
    simpa using hne
  have htaken : (Scopes.mk (level :: outer) none).isTaken name = false := by
    have htake : outer.take (outer.length - 2) = [] := List.take_eq_nil_iff.mpr (.inl (by omega))
    rw [Scopes.isTaken, Scopes.rivals, htake, List.any_cons, hnone]
    rfl
  exact ⟨_, by rw [Scopes.enter, htaken]; rfl⟩

theorem Holds.exists_enterMembers (cls : String) {ds : List (Site × Span × Meaning)}
    (h : Holds scopes level outer)
    (hnames : (((ds.map fun x => (x.2.2.name, x.2.2)).reverse ++ level).map (·.1)).Nodup) :
    ∃ scopes', Resolve.enterMembers cls ds scopes = .ok scopes' := by
  induction ds generalizing scopes level with
  | nil => exact ⟨scopes, rfl⟩
  | cons x ds ih =>
    rw [List.map_cons, List.reverse_cons, List.append_assoc, List.singleton_append] at hnames
    obtain ⟨scopes₁, henter⟩ := h.exists_enter hnames
    obtain ⟨scopes', hrest⟩ := ih (h.enter henter) hnames
    refine ⟨scopes', ?_⟩
    rw [Resolve.enterMembers, henter]
    exact hrest

theorem Holds.exists_enterClasses {cs : List ClassDecl} (i : Nat) (h : Holds scopes level outer)
    (hnames : (((Resolve.classEntries cs).reverse ++ level).map (·.1)).Nodup) :
    ∃ scopes', Resolve.enterClasses i cs scopes = .ok scopes' := by
  induction cs generalizing i scopes level with
  | nil => exact ⟨scopes, rfl⟩
  | cons c cs ih =>
    rw [classEntries, List.map_cons, List.reverse_cons, List.append_assoc, List.singleton_append]
      at hnames
    obtain ⟨scopes₁, henter⟩ := h.exists_enter hnames
    obtain ⟨scopes', hrest⟩ := ih (i + 1) (h.enter henter) hnames
    refine ⟨scopes', ?_⟩
    rw [Resolve.enterClasses, henter]
    exact hrest

end Declaring

/-! ### Members -/

section Members

variable {cs ds : List ClassDecl} {c d : ClassDecl}

theorem member?_eq_of_rearranges (h : c.Rearranges d)
    (hnames : ((memberMeanings c).map Meaning.name).Nodup)
    (name : String) : d.member? name = c.member? name := by
  rw [← head_member?, ← head_member?, head_member?_eq_find?, head_member?_eq_find?]
  exact (find?_eq_of_perm h.memberMeanings hnames name).symm

theorem members_entries (c : ClassDecl) (i : Nat) :
    ((members c i).map fun x => (x.2.2.name, x.2.2)) = (memberMeanings c).map fun d =>
      (d.name, d) := by
  rw [← members_meanings c i, List.map_map]
  rfl

theorem fieldTypes_eq_ok_iff {fs : List Field} :
    fieldTypes cs fs = .ok () ↔ ∀ f ∈ fs, type cs f.type = .ok () := by
  induction fs with
  | nil => exact ⟨fun _ => List.forall_mem_nil _, fun _ => rfl⟩
  | cons f fs ih =>
    rw [fieldTypes, Except.bind_eq_ok, List.forall_mem_cons, ← ih]
    constructor
    · rintro ⟨_, hf, hfs⟩
      exact ⟨hf, hfs⟩
    · rintro ⟨hf, hfs⟩
      exact ⟨(), hf, hfs⟩

theorem forall₂_of_methods {ctx : Signature → Nat → Context} {scopes : Scopes Meaning} {k : Nat}
    {ms ms' : List Method} (h : methods ctx scopes k ms = .ok ms') :
    List.Forall₂ (fun m m' => ∃ k, method (ctx m.toSignature k) scopes m = .ok m') ms ms' := by
  induction ms generalizing k ms' with
  | nil =>
    cases h
    exact .nil
  | cons m ms ih =>
    obtain ⟨m₁, hm, h⟩ := Except.bind_eq_ok.mp h
    obtain ⟨ms₁, hms, h⟩ := Except.bind_eq_ok.mp h
    cases h
    exact .cons ⟨k, hm⟩ (ih hms)

theorem methods_of_forall₂ {ctx : Signature → Nat → Context} {scopes : Scopes Meaning} {k : Nat}
    {ms ms' : List Method}
    (h : List.Forall₂ (fun m m' => ∀ k, method (ctx m.toSignature k) scopes m = .ok m') ms ms') :
    methods ctx scopes k ms = .ok ms' := by
  induction h generalizing k with
  | nil => rfl
  | cons hm _ ih => exact Except.bind_eq_ok.mpr ⟨_, hm k, Except.bind_eq_ok.mpr ⟨_, ih, rfl⟩⟩

/-- A class is read alike in any order of its members, at any place. -/
theorem classDecl_of_rearranges {scopes scopes' : Scopes Meaning} {level level' : Level Meaning}
    {i : Nat} {c' : ClassDecl} (hclasses : ClassesAgree cs ds) (hs : Holds scopes level [])
    (hs' : Holds scopes' level' []) (hagrees : scopes.Agrees scopes') (hcd : c.Rearranges d)
    (h : classDecl cs scopes i c = .ok c') :
    ∃ d', (∀ j, classDecl ds scopes' j d = .ok d') ∧ c'.Rearranges d' := by
  obtain ⟨s₁, hmembers, h⟩ := Except.bind_eq_ok.mp h
  obtain ⟨u, hfields, h⟩ := Except.bind_eq_ok.mp h
  obtain ⟨ms, hmethods, h⟩ := Except.bind_eq_ok.mp h
  cases h
  obtain ⟨ms', hms', hperm⟩ := List.perm_comp_forall₂ hcd.methods.symm (forall₂_of_methods hmethods)
  refine ⟨{ d with methods := ms' }, fun j => ?_, hcd.id, hcd.span, hcd.fields, hperm.symm⟩
  have hs₁ := (hs.openScope (Nat.zero_le 1)).enterMembers hmembers
  have hentries : ((members c i).map fun x => (x.2.2.name, x.2.2)).reverse.Perm
      ((members d j).map fun x => (x.2.2.name, x.2.2)).reverse := by
    rw [members_entries, members_entries]
    exact (List.reverse_perm _).trans ((hcd.memberMeanings.map _).trans (List.reverse_perm _).symm)
  have hnames := ((hentries.append_right []).map (·.1)).nodup_iff.mp hs₁.names
  have hopen' := hs'.openScope (Nat.zero_le 1)
  obtain ⟨t₁, hmembers'⟩ := hopen'.exists_enterMembers d.name hnames
  have hs₁' := hopen'.enterMembers hmembers'
  have hagrees₁ : s₁.Agrees t₁ := by
    refine hs₁.agrees hs₁' (hentries.append_right []) ?_
    rw [hs.eq, hs'.eq] at hagrees
    exact hagrees
  refine Except.bind_eq_ok.mpr ⟨t₁, hmembers',
    Except.bind_eq_ok.mpr ⟨(), ?_, Except.bind_eq_ok.mpr ⟨ms', ?_, rfl⟩⟩⟩
  · refine fieldTypes_eq_ok_iff.mpr fun f hf => ?_
    exact hclasses.type f.type () (fieldTypes_eq_ok_iff.mp hfields f (hcd.fields.mem_iff.mpr hf))
  · refine methods_of_forall₂ (hms'.imp fun m m' hm k => ?_)
    obtain ⟨k₀, hm⟩ := hm
    have hctx : Context.Agrees ⟨cs, c.name, m.toSignature, i, k₀⟩ ⟨ds, d.name, m.toSignature, j,
        k⟩ :=
      ⟨hcd.name_eq, rfl, hclasses⟩
    exact hctx.method_follows hagrees₁ m m' hm

theorem forall₂_of_classDecls {scopes : Scopes Meaning} {i : Nat} {es es' : List ClassDecl}
    (h : classDecls cs scopes i es = .ok es') :
    List.Forall₂ (fun c c' => ∃ i, classDecl cs scopes i c = .ok c') es es' := by
  induction es generalizing i es' with
  | nil =>
    cases h
    exact .nil
  | cons c es ih =>
    obtain ⟨c₁, hc, h⟩ := Except.bind_eq_ok.mp h
    obtain ⟨es₁, hes, h⟩ := Except.bind_eq_ok.mp h
    cases h
    exact .cons ⟨i, hc⟩ (ih hes)

theorem classDecls_of_forall₂ {scopes : Scopes Meaning} {i : Nat} {es es' : List ClassDecl}
    (h : List.Forall₂ (fun c c' => ∀ i, classDecl cs scopes i c = .ok c') es es') :
    classDecls cs scopes i es = .ok es' := by
  induction h generalizing i with
  | nil => rfl
  | cons hc _ ih => exact Except.bind_eq_ok.mpr ⟨_, hc i, Except.bind_eq_ok.mpr ⟨_, ih, rfl⟩⟩

end Members

end Resolve

/-! ### Programs -/

namespace Program

open Resolve

variable {p q r : Program}

theorem heads_of_resolve (h : p.resolve = .ok r) : r.heads = p.heads := by
  rw [← heads_unbound, (resolve_eq_ok h).1, heads_unbound]

theorem Rearranges.allClasses_names (h : p.Rearranges q)
    (hnames : (p.allClasses.map ClassDecl.name).Nodup) :
    (q.allClasses.map ClassDecl.name).Nodup := by
  have hperm : (p.classes.map ClassDecl.name).Perm (q.classes.map ClassDecl.name) := by
    have hentries := h.classEntries.map (·.1)
    rwa [Resolve.classEntries, Resolve.classEntries, List.map_map, List.map_map] at hentries
  rw [allClasses, List.map_append] at hnames ⊢
  exact (hperm.append_right _).nodup_iff.mp hnames

theorem Rearranges.classesAgree (h : p.Rearranges q)
    (hnames : (p.allClasses.map ClassDecl.name).Nodup)
    (hmembers : ∀ c ∈ p.classes, ((memberMeanings c).map Meaning.name).Nodup) :
    ClassesAgree p.allClasses q.allClasses := by
  intro name c hc
  obtain ⟨hmem, rfl⟩ := class?_mem hc
  have hfound {d : ClassDecl} (hd : d ∈ q.allClasses) : class? q.allClasses d.name = some d :=
    (find?_eq_some_of_nodup (h.allClasses_names hnames)).mpr ⟨hd, rfl⟩
  rcases List.mem_append.mp hmem with hmem | hmem
  · obtain ⟨d, hd, hcd⟩ := h.exists_mem hmem
    refine ⟨d, ?_, hcd.name_eq.symm, member?_eq_of_rearranges hcd (hmembers c hmem)⟩
    rw [hcd.name_eq]
    exact hfound (List.mem_append_left _ hd)
  · exact ⟨c, hfound (List.mem_append_right _ hmem), rfl, fun _ => rfl⟩

/-- Classes that are read one by one are read one by one in their rearranged forms. -/
theorem exists_forall₂_rearranged {R S : ClassDecl → ClassDecl → Prop}
    {cs cs' ds : List ClassDecl}
    (hstep : ∀ c c' d, R c c' → c.Rearranges d → ∃ d', S d d' ∧ c'.Rearranges d')
    (hread : List.Forall₂ R cs cs') (hcs : List.Forall₂ ClassDecl.Rearranges cs ds) :
    ∃ ds', List.Forall₂ S ds ds' ∧ List.Forall₂ ClassDecl.Rearranges cs' ds' := by
  induction hread generalizing ds with
  | nil =>
    cases hcs
    exact ⟨[], .nil, .nil⟩
  | cons hc _ ih =>
    cases hcs with
    | cons hcd hcs =>
      obtain ⟨d', hd, hcd'⟩ := hstep _ _ _ hc hcd
      obtain ⟨ds', hds, hcs'⟩ := ih hcs
      exact ⟨d' :: ds', .cons hd hds, .cons hcd' hcs'⟩

theorem Rearranges.resolve (h : p.Rearranges q) (hp : p.resolve = .ok r) :
    ∃ s, q.resolve = .ok s ∧ r.Rearranges s := by
  have hscoped := (resolve_eq_ok hp).2
  have hheads := heads_of_resolve hp
  have hnames : (p.allClasses.map ClassDecl.name).Nodup := by
    have := hscoped.classNames
    rwa [hheads, heads, List.map_map] at this
  have hmembers : ∀ c ∈ p.classes, ((memberMeanings c).map Meaning.name).Nodup := by
    intro c hc
    rw [memberMeanings_names]
    refine hscoped.memberNames c.head ?_
    rw [hheads]
    exact List.mem_map_of_mem (List.mem_append_left _ hc)
  have hclasses := h.classesAgree hnames hmembers
  obtain ⟨scopes, henter, hp⟩ := Except.bind_eq_ok.mp hp
  obtain ⟨rcs, hread, hp⟩ := Except.bind_eq_ok.mp hp
  cases hp
  -- the classes of both are declared under the same names
  have hs := holds_predefined.enterClasses henter
  have hentries :
      ((Resolve.classEntries p.classes).reverse ++
        (Resolve.classEntries Library.classes).reverse).Perm
      ((Resolve.classEntries q.classes).reverse ++
        (Resolve.classEntries Library.classes).reverse) :=
    ((List.reverse_perm _).trans (h.classEntries.trans (List.reverse_perm _).symm)).append_right _
  obtain ⟨scopes', henter'⟩ :=
    holds_predefined.exists_enterClasses 0 ((hentries.map (·.1)).nodup_iff.mp hs.names)
  have hs' := holds_predefined.enterClasses henter'
  have hagrees : scopes.Agrees scopes' := hs.agrees hs' hentries ⟨rfl, rfl⟩
  -- each class is read alike, at whatever place it stands
  obtain ⟨cs, hcs, hperm⟩ := h
  have hstep : ∀ c c' d, (∃ i, classDecl p.allClasses scopes i c = .ok c') → c.Rearranges d →
      ∃ d', (∀ j, classDecl q.allClasses scopes' j d = .ok d') ∧ c'.Rearranges d' := by
    rintro c c' d ⟨i, hc⟩ hcd
    exact classDecl_of_rearranges hclasses hs hs' hagrees hcd hc
  obtain ⟨dcs, hdcs, hrearranged⟩ :=
    exists_forall₂_rearranged hstep (forall₂_of_classDecls hread) hcs
  obtain ⟨scs, hscs, hperm'⟩ := List.perm_comp_forall₂ hperm.symm hdcs
  refine ⟨{ q with classes := scs }, ?_, dcs, hrearranged, hperm'.symm⟩
  exact Except.bind_eq_ok.mpr ⟨scopes', henter',
    Except.bind_eq_ok.mpr ⟨scs, classDecls_of_forall₂ hscs, rfl⟩⟩

end Program

end MiniJava
