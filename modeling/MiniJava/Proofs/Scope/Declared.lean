import MiniJava.Proofs.Scope.Resolved
/-!
From bodies to programs. Parameters, members and classes are declared in a scope each, all under
different names, so that each scope is a lookup of the rules.
-/
namespace MiniJava.Resolve

open Setting

section Levels

variable {scopes scopes' : Scopes Meaning} {level : Level Meaning} {outer : List (Level Meaning)}

/-- The innermost scope, with names all different and at most two scopes around it. -/
structure Holds (scopes : Scopes Meaning) (level : Level Meaning)
    (outer : List (Level Meaning)) : Prop where
  eq : scopes = ⟨level :: outer, none⟩
  shallow : outer.length ≤ 2
  names : (level.map (·.1)).Nodup

theorem Holds.openScope (h : Holds scopes level outer) (hs : outer.length ≤ 1) :
    Holds scopes.openScope [] (level :: outer) := by
  refine ⟨?_, Nat.succ_le_succ hs, List.nodup_nil⟩
  rw [h.eq]
  rfl

theorem Holds.enter {name : String} {d : Meaning} (h : Holds scopes level outer)
    (he : scopes.enter name d = .ok (some scopes')) : Holds scopes' ((name, d) :: level) outer := by
  obtain ⟨rfl, hs, hnames⟩ := h
  obtain ⟨inner, outer', hl, htaken, rfl⟩ := enter_eq_some he
  obtain ⟨rfl, rfl⟩ := List.cons.inj hl
  refine ⟨rfl, hs, List.nodup_cons.mpr ⟨?_, hnames⟩⟩
  -- no other scope is a rival: the mark of a taken name is in the innermost scope
  have hrivals : Scopes.rivals (level :: outer) = [level] := by
    have htake : outer.take (outer.length - 2) = [] := List.take_eq_nil_iff.mpr (.inl (by omega))
    rw [Scopes.rivals, htake]
  rw [Scopes.isTaken, hrivals, List.any_cons, List.any_nil, Bool.or_false] at htaken
  intro hmem
  obtain ⟨x, hx, rfl⟩ := List.mem_map.mp hmem
  have hnone :=
    List.lookup_eq_none_iff.mp (Option.not_isSome_iff_eq_none.mp (Bool.eq_false_iff.mp htaken))
  simpa using hnone x hx

theorem Holds.enterMembers {cls : String} {ds : List (Site × Span × Meaning)}
    (h : Holds scopes level outer) (he : enterMembers cls ds scopes = .ok scopes') :
    Holds scopes' ((ds.map fun x => (x.2.2.name, x.2.2)).reverse ++ level) outer := by
  induction ds generalizing scopes level with
  | nil => cases he; exact h
  | cons x ds ih =>
    rw [Resolve.enterMembers] at he
    split at he
    · rename_i scopes₁ he₁
      rw [List.map_cons, List.reverse_cons, List.append_assoc]
      exact ih (h.enter he₁) he
    · cases he

/-- Classes with their names. -/
def classEntries (cs : List ClassDecl) : Level Meaning := cs.map fun c => (c.name, .cls c.name)

theorem Holds.enterClasses {cs : List ClassDecl} {i : Nat} (h : Holds scopes level outer)
    (he : enterClasses i cs scopes = .ok scopes') :
    Holds scopes' ((classEntries cs).reverse ++ level) outer := by
  induction cs generalizing i scopes level with
  | nil => cases he; exact h
  | cons c cs ih =>
    rw [Resolve.enterClasses] at he
    split at he
    · rename_i scopes₁ he₁
      rw [classEntries, List.map_cons, List.reverse_cons, List.append_assoc]
      exact ih (h.enter he₁) he
    · cases he

theorem Holds.params {ctx : Context} {vs : List Variable} {i : Nat} (h : Holds scopes level outer)
    (he : params ctx i vs scopes = .ok scopes') :
    Holds scopes' (((vs.zipIdx i).map fun x => (x.1.name, .param x.2 x.1)).reverse ++ level) outer ∧
      ∀ v ∈ vs, v.type.Declared ctx.setting.classes := by
  induction vs generalizing i scopes level with
  | nil => cases he; exact ⟨h, fun v hv => by cases hv⟩
  | cons v vs ih =>
    rw [Resolve.params] at he
    obtain ⟨u, htype, he⟩ := Except.bind_eq_ok.mp he
    split at he
    · rename_i scopes₁ he₁
      rw [List.zipIdx_cons, List.map_cons, List.reverse_cons, List.append_assoc]
      obtain ⟨hholds, htypes⟩ := ih (h.enter he₁) he
      exact ⟨hholds, List.forall_mem_cons.mpr ⟨declared_of_type htype, htypes⟩⟩
    · cases he

end Levels

section Lookups

variable {E : Setting} {scopes : Scopes Meaning} {outer : List (Level Meaning)} {name : String}

theorem Holds.lookup_classes {p : Program} (hE : E.classes = p.heads)
    (h : Holds scopes ((classEntries p.classes).reverse ++ (classEntries Library.classes).reverse)
      []) :
    ((classEntries p.classes).reverse ++ (classEntries Library.classes).reverse).lookup name =
      (E.class? name).map (.cls ·.name) := by
  have hperm : ((classEntries p.classes).reverse ++ (classEntries Library.classes).reverse).Perm
      (p.allClasses.map fun c => (c.name, .cls c.name)) := by
    rw [Program.allClasses, List.map_append]
    exact (List.reverse_perm _).append (List.reverse_perm _)
  rw [lookup_eq_find? h.names hperm, Setting.class?, hE, Program.heads, List.find?_map,
    Option.map_map]
  rfl

/-- The members of a class, the fields first. -/
def memberMeanings (c : ClassDecl) : List Meaning :=
  c.fields.map (.field c.name) ++ c.methods.map (.method c.name ·.toSignature)

theorem members_meanings (c : ClassDecl) (i : Nat) :
    (members c i).map (·.2.2) = memberMeanings c := by
  rw [members, List.map_append, memberMeanings]
  congr 1
  · refine map_mapIdx_eq_map ?_
    intros; rfl
  · refine map_mapIdx_eq_map ?_
    intros; rfl

theorem memberMeanings_names (c : ClassDecl) :
    (memberMeanings c).map Meaning.name = c.head.fields.map (·.name) ++ c.head.methods.map
      (·.name) := by
  simp only [memberMeanings, List.map_append, List.map_map, ClassDecl.head]
  rfl

theorem head_member?_eq_find? (c : ClassDecl) :
    c.head.member? name = (memberMeanings c).find? (·.name == name) := by
  rw [memberMeanings, List.find?_append, List.find?_map, List.find?_map, ClassHead.member?,
    ClassDecl.head, List.find?_map, Option.map_map]
  rfl

theorem class?_owner {p : Program} {c : ClassDecl} (hE : E.classes = p.heads)
    (ho : E.owner = c.name) (hnames : (p.heads.map (·.name)).Nodup)
    (hc : c ∈ p.classes) : E.class? E.owner = some c.head := by
  rw [Setting.class?, hE, find?_eq_some_of_nodup hnames, ho]
  exact ⟨List.mem_map_of_mem (List.mem_append_left _ hc), rfl⟩

theorem Holds.lookup_members {p : Program} {c : ClassDecl} {i : Nat} (hE : E.classes = p.heads)
    (ho : E.owner = c.name) (hnames : (p.heads.map (·.name)).Nodup) (hc : c ∈ p.classes)
    (h : Holds scopes ((members c i).map fun x => (x.2.2.name, x.2.2)).reverse outer) :
    ((members c i).map fun x => (x.2.2.name, x.2.2)).reverse.lookup name =
      E.member? E.owner name := by
  have hperm : ((members c i).map fun x => (x.2.2.name, x.2.2)).reverse.Perm
      ((memberMeanings c).map fun d => (d.name, d)) := by
    rw [← members_meanings c i, List.map_map]
    exact List.reverse_perm _
  rw [lookup_eq_find? h.names hperm, Setting.member?, class?_owner hE ho hnames hc,
    Option.bind_some, head_member?_eq_find?]
  simp

theorem Holds.lookup_params
    (h : Holds scopes (E.method.params.zipIdx.map fun x => (x.1.name, .param x.2 x.1)).reverse
      outer) :
    (E.method.params.zipIdx.map fun x => (x.1.name, .param x.2 x.1)).reverse.lookup name =
      E.param? name := by
  rw [lookup_eq_find? h.names (List.reverse_perm _)]
  rfl

end Lookups

section Bodies

variable {ctx : Context} {scopes : Scopes Meaning}

/-- The scopes of a class outside its methods. -/
structure ReflectsMembers (E : Setting) (scopes : Scopes Meaning)
    (members classes : Level Meaning) : Prop where
  eq : scopes = ⟨[members, classes], none⟩
  members : ∀ name, members.lookup name = E.member? E.owner name
  classes : ∀ name, classes.lookup name = (E.class? name).map (.cls ·.name)

theorem method_eq_ok {members classes : Level Meaning} {m m' : Method}
    (hm : ctx.method = m.toSignature) (hr : ReflectsMembers ctx.setting scopes members classes)
    (h : method ctx scopes m = .ok m') :
    m'.unbound = m.unbound ∧ ctx.setting.MethodScoped m'.body := by
  unfold Resolve.method at h
  obtain ⟨u, htype, h₂⟩ := Except.bind_eq_ok.mp h
  obtain ⟨scopes₁, h₃, h₄⟩ := Except.bind_eq_ok.mp h₂
  have hopen : Holds scopes.openScope [] [members, classes] :=
    ⟨by rw [hr.eq]; rfl, Nat.le_refl 2, List.nodup_nil⟩
  have hparams : m.params = ctx.setting.method.params := by rw [Context.setting, hm]
  rw [hparams] at h₃
  obtain ⟨hholds, htypes⟩ := hopen.params h₃
  rw [List.append_nil] at hholds
  have hreflects : Reflects ctx.setting [[]] scopes₁ := by
    refine ⟨List.cons_ne_nil _ _, ?_⟩
    rw [hholds.eq]
    simp only [List.map_cons, List.map_nil, hholds.lookup_params, hr.members, hr.classes]
    rfl
  split at h₄
  · rename_i body σ hbody
    cases h₄
    have hnone : scopes₁.declaring = none := by rw [hholds.eq]
    obtain ⟨hsame, hfollows, -⟩ := stmts_eq_ok (σ := ⟨scopes₁, 0⟩) hreflects hnone hbody
    refine ⟨?_, ?_, htypes, ?_, hfollows⟩
    · rw [Method.unbound, Method.unbound, hsame]
    · rw [Context.setting, hm]
      exact declared_of_type htype
    · have hnames := hholds.names
      rw [List.map_reverse, List.nodup_reverse, List.map_map] at hnames
      rw [← List.zipIdx_map_fst 0 (Signature.params _), List.map_map]
      exact hnames
  · cases h₄

theorem methods_eq_ok {cls : List ClassDecl} {owner : String} {i k : Nat}
    {members classes : Level Meaning} {ms ms' : List Method}
    (hr : ∀ m, ReflectsMembers ⟨cls.map ClassDecl.head, owner, m⟩ scopes members classes)
    (h : methods (fun m k => ⟨cls, owner, m, i, k⟩) scopes k ms = .ok ms') :
    ms'.map Method.unbound = ms.map Method.unbound ∧
      ∀ m ∈ ms', MethodScoped ⟨cls.map ClassDecl.head, owner, m.toSignature⟩ m.body := by
  induction ms generalizing k ms' with
  | nil => cases h; exact ⟨rfl, fun m hm => by cases hm⟩
  | cons m ms ih =>
    rw [methods] at h
    obtain ⟨m₁, h₁, h₂⟩ := Except.bind_eq_ok.mp h
    obtain ⟨ms₁, h₃, h₄⟩ := Except.bind_eq_ok.mp h₂
    cases h₄
    obtain ⟨hsame, hbody⟩ :=
      @method_eq_ok ⟨cls, owner, m.toSignature, i, k⟩ scopes _ _ m m₁ rfl (hr _) h₁
    obtain ⟨hsames, hbodies⟩ := ih h₃
    refine ⟨by rw [List.map_cons, List.map_cons, hsame, hsames], ?_⟩
    intro m' hm'
    rcases List.mem_cons.mp hm' with rfl | hm'
    · have hsig : m'.toSignature = m.toSignature := congrArg (·.toSignature) hsame
      rw [hsig]
      exact hbody
    · exact hbodies m' hm'

theorem declared_of_fieldTypes {cls : List ClassDecl} {fs : List Field}
    (h : fieldTypes cls fs = .ok ()) : ∀ f ∈ fs, f.type.Declared (cls.map ClassDecl.head) := by
  induction fs with
  | nil => intro f hf; cases hf
  | cons f fs ih =>
    rw [fieldTypes] at h
    obtain ⟨u, htype, h⟩ := Except.bind_eq_ok.mp h
    exact List.forall_mem_cons.mpr ⟨declared_of_type htype, ih h⟩

end Bodies

section Classes

variable {p : Program} {scopes : Scopes Meaning} {i : Nat}

/-- A class whose members have names of their own and follow the rules. -/
structure ClassScoped (p : Program) (c : ClassDecl) : Prop where
  names : (c.head.fields.map (·.name) ++ c.head.methods.map (·.name)).Nodup
  fieldTypes : ∀ f ∈ c.fields, f.type.Declared p.heads
  methods : ∀ m ∈ c.methods, (p.setting c.name m).MethodScoped m.body

theorem classDecl_eq_ok {c c' : ClassDecl} (hnames : (p.heads.map (·.name)).Nodup)
    (hs : Holds scopes
      ((classEntries p.classes).reverse ++ (classEntries Library.classes).reverse) [])
    (hc : c ∈ p.classes) (h : classDecl p.allClasses scopes i c = .ok c') :
    c'.unbound = c.unbound ∧ ClassScoped p c' := by
  unfold Resolve.classDecl at h
  obtain ⟨scopes₁, h₁, h₂⟩ := Except.bind_eq_ok.mp h
  obtain ⟨u, hfields, h₃⟩ := Except.bind_eq_ok.mp h₂
  obtain ⟨ms, h₄, h₅⟩ := Except.bind_eq_ok.mp h₃
  cases h₅
  have hmembers := (hs.openScope (Nat.zero_le 1)).enterMembers h₁
  rw [List.append_nil] at hmembers
  have hreflects (m : Signature) : ReflectsMembers ⟨p.heads, c.name, m⟩ scopes₁ _ _ :=
    ⟨hmembers.eq, fun name => hmembers.lookup_members rfl rfl hnames hc,
      fun name => hs.lookup_classes rfl⟩
  obtain ⟨hsame, hbodies⟩ := methods_eq_ok hreflects h₄
  have hsigs : ms.map (·.toSignature) = c.methods.map (·.toSignature) := by
    have := congrArg (List.map (·.toSignature)) hsame
    rwa [List.map_map, List.map_map] at this
  refine ⟨?_, ?_, declared_of_fieldTypes hfields, hbodies⟩
  · rw [ClassDecl.unbound, ClassDecl.unbound, hsame]
  · have := hmembers.names
    rw [List.map_reverse, List.nodup_reverse, List.map_map] at this
    rw [ClassDecl.head, hsigs]
    change (c.head.fields.map (·.name) ++ c.head.methods.map (·.name)).Nodup
    rw [← memberMeanings_names, ← members_meanings c i, List.map_map]
    exact this

theorem classDecls_eq_ok {cs cs' : List ClassDecl} (hnames : (p.heads.map (·.name)).Nodup)
    (hs : Holds scopes
      ((classEntries p.classes).reverse ++ (classEntries Library.classes).reverse) [])
    (hcs : ∀ c ∈ cs, c ∈ p.classes) (h : classDecls p.allClasses scopes i cs = .ok cs') :
    cs'.map ClassDecl.unbound = cs.map ClassDecl.unbound ∧ ∀ c ∈ cs', ClassScoped p c := by
  induction cs generalizing i cs' with
  | nil => cases h; exact ⟨rfl, fun c hc => by cases hc⟩
  | cons c cs ih =>
    rw [classDecls] at h
    obtain ⟨c₁, h₁, h₂⟩ := Except.bind_eq_ok.mp h
    obtain ⟨cs₁, h₃, h₄⟩ := Except.bind_eq_ok.mp h₂
    cases h₄
    obtain ⟨hc, hcs⟩ := List.forall_mem_cons.mp hcs
    obtain ⟨hsame, hfollows⟩ := classDecl_eq_ok hnames hs hc h₁
    obtain ⟨hsames, hfollows'⟩ := ih hcs h₃
    exact ⟨by rw [List.map_cons, List.map_cons, hsame, hsames],
      List.forall_mem_cons.mpr ⟨hfollows, hfollows'⟩⟩

end Classes

end MiniJava.Resolve

namespace MiniJava

open Resolve

theorem Library.memberNames : ∀ c ∈ Library.classes,
    (c.head.fields.map (·.name) ++ c.head.methods.map (·.name)).Nodup := by
  decide

theorem Library.classNames : (Library.classes.map ClassDecl.name).Nodup := by
  decide

theorem Resolve.holds_predefined : Holds predefined (classEntries Library.classes).reverse [] := by
  refine ⟨rfl, Nat.zero_le 2, ?_⟩
  rw [List.map_reverse, List.nodup_reverse, classEntries, List.map_map]
  exact Library.classNames

mutual

theorem Stmt.locals_unbound : ∀ s : Stmt, s.unbound.locals = s.locals
  | .block body _ => Stmt.localsOf_unboundAll body
  | .declare _ _ _ | .assign _ _ _ | .assignIndex _ _ _ _ | .call _ _ _ | .ret none _ |
      .ret (some _) _ => rfl
  | .ifThen _ t _ => t.locals_unbound
  | .ifElse _ t e _ => by
    rw [Stmt.unbound, Stmt.locals, Stmt.locals, t.locals_unbound, e.locals_unbound]
  | .loop _ body _ => body.locals_unbound

theorem Stmt.localsOf_unboundAll :
    ∀ ss : List Stmt, Stmt.localsOf (Stmt.unboundAll ss) = Stmt.localsOf ss
  | [] => rfl
  | s :: ss => by
    rw [Stmt.unboundAll, Stmt.localsOf, Stmt.localsOf, s.locals_unbound,
      Stmt.localsOf_unboundAll ss]

end

theorem Method.locals_unbound (m : Method) : m.unbound.locals = m.locals :=
  Stmt.localsOf_unboundAll m.body

theorem Program.heads_unbound (p : Program) : p.unbound.heads = p.heads := by
  simp only [Program.heads, Program.allClasses, Program.unbound, List.map_append, List.map_map]
  congr 1
  refine List.map_congr_left fun c _ => ?_
  simp [ClassDecl.head, ClassDecl.unbound, ClassDecl.name, Method.unbound, Function.comp_def]

/-- What resolution makes of a program: the same program, which follows the scoping rules. -/
theorem Program.resolve_eq_ok {p q : Program}
    (h : p.resolve = .ok q) : q.unbound = p.unbound ∧ q.Scoped := by
  unfold Program.resolve at h
  obtain ⟨scopes, h₁, h₂⟩ := Except.bind_eq_ok.mp h
  obtain ⟨cs, h₃, h₄⟩ := Except.bind_eq_ok.mp h₂
  cases h₄
  have hs := holds_predefined.enterClasses h₁
  have hnames : (p.heads.map (·.name)).Nodup := by
    have := hs.names
    rw [List.map_append, List.map_reverse, List.map_reverse, classEntries, classEntries,
      List.map_map, List.map_map] at this
    rw [Program.heads, List.map_map, Program.allClasses, List.map_append]
    exact ((List.reverse_perm _).append (List.reverse_perm _)).nodup_iff.mp this
  obtain ⟨hsame, hfollows⟩ := classDecls_eq_ok hnames hs (fun c hc => hc) h₃
  have hunbound : Program.unbound { p with classes := cs } = p.unbound := by
    rw [Program.unbound, Program.unbound, hsame]
  have hheads : Program.heads { p with classes := cs } = p.heads := by
    rw [← Program.heads_unbound, hunbound, Program.heads_unbound]
  refine ⟨hunbound, hheads ▸ hnames, ?_, ?_, ?_⟩
  · intro c hc
    obtain ⟨d, hd, rfl⟩ := List.mem_map.mp hc
    rcases List.mem_append.mp hd with hd | hd
    · exact (hfollows d hd).names
    · exact Library.memberNames d hd
  · intro c hc f hf
    rw [hheads]
    exact (hfollows c hc).fieldTypes f hf
  · intro c hc m hm
    rw [Program.setting, hheads]
    exact (hfollows c hc).methods m hm

end MiniJava
