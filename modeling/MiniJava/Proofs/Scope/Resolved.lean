import Mathlib.Data.List.Nodup
import MiniJava.Proofs.Scope.Lexical
import MiniJava.Proofs.Sequence
/-!
Resolution follows the scoping rules. Each open scope is a lookup of one part of the rules, so that
a search from the innermost scope outwards finds what a bare name denotes.
-/
namespace MiniJava

/-- The lookups of the scopes of a method, the innermost first. The block of the body shares its
scope with the parameters. -/
def Setting.frames (E : Setting) : Blocks → List (String → Option Meaning)
  | [] => []
  | [block] => [fun name => (localIn block name).or (E.param? name)]
  | block :: outer :: blocks => localIn block :: E.frames (outer :: blocks)

theorem Setting.findSome?_frames (E : Setting) {blocks : Blocks} (hne : blocks ≠ [])
    (name : String) :
    (E.frames blocks).findSome? (· name) = (blocks.nearest? name).or (E.param? name) := by
  fun_induction E.frames blocks with
  | case1 => exact absurd rfl hne
  | case2 block => cases h : localIn block name <;> simp [Blocks.nearest?, h]
  | case3 block outer blocks ih =>
    rw [List.findSome?_cons, ih (List.cons_ne_nil _ _)]
    cases h : localIn block name <;> simp [Blocks.nearest?, h]

namespace Resolve

open Setting

section Names

variable {α δ : Type} {name : String}

theorem mem_of_lookup {level : Level δ} {d : δ} (h : level.lookup name = some d) :
    (name, d) ∈ level := by
  obtain ⟨l₁, l₂, rfl, -⟩ := List.lookup_eq_some_iff.mp h
  exact List.mem_append_right _ List.mem_cons_self

theorem find?_eq_some_of_nodup {key : α → String} {xs : List α} (h : (xs.map key).Nodup) {x : α} :
    xs.find? (key · == name) = some x ↔ x ∈ xs ∧ key x = name := by
  constructor
  · intro hx
    exact ⟨List.mem_of_find?_eq_some hx, by simpa using List.find?_some hx⟩
  · rintro ⟨hx, rfl⟩
    have hsome : (xs.find? (key · == key x)).isSome :=
      List.find?_isSome.mpr ⟨x, hx, beq_self_eq_true (key x)⟩
    obtain ⟨y, hy⟩ := Option.isSome_iff_exists.mp hsome
    have hkey : key y = key x := by simpa using List.find?_some hy
    rw [hy, List.inj_on_of_nodup_map h (List.mem_of_find?_eq_some hy) hx hkey]

theorem lookup_eq_some_of_nodup {level : Level δ} (h : (level.map (·.1)).Nodup) {d : δ} :
    level.lookup name = some d ↔ (name, d) ∈ level := by
  constructor
  · exact mem_of_lookup
  · intro hd
    obtain ⟨l₁, l₂, rfl⟩ := List.append_of_mem hd
    refine List.lookup_eq_some_iff.mpr ⟨l₁, l₂, rfl, ?_⟩
    intro x hx
    have hne : x.1 ≠ name := by
      rintro rfl
      rw [List.map_append, List.map_cons] at h
      exact (List.nodup_append.mp h).2.2 x.1 (List.mem_map_of_mem hx) x.1 List.mem_cons_self rfl
    simpa using Ne.symm hne

theorem lookup_eq_find? {level : Level δ} {key : α → String} {f : α → δ} {xs : List α}
    (h : (level.map (·.1)).Nodup) (hperm : level.Perm (xs.map fun x => (key x, f x))) :
    level.lookup name = (xs.find? (key · == name)).map f := by
  have hkeys : (xs.map key).Nodup := by
    have := (hperm.map (·.1)).nodup_iff.mp h
    rwa [List.map_map] at this
  refine Option.ext fun d => ?_
  rw [lookup_eq_some_of_nodup h, hperm.mem_iff, List.mem_map, Option.map_eq_some_iff]
  constructor
  · rintro ⟨x, hx, heq⟩
    obtain ⟨rfl, rfl⟩ := Prod.mk.inj heq
    exact ⟨x, (find?_eq_some_of_nodup hkeys).mpr ⟨hx, rfl⟩, rfl⟩
  · rintro ⟨x, hx, rfl⟩
    obtain ⟨hmem, rfl⟩ := (find?_eq_some_of_nodup hkeys).mp hx
    exact ⟨x, hmem, rfl⟩

end Names

section Scopes

variable {E : Setting} {blocks : Blocks} {scopes scopes' : Scopes Meaning}

theorem enter_eq_some {δ : Type} {scopes scopes' : Scopes δ} {name : String} {d : δ}
    (h : scopes.enter name d = .ok (some scopes')) :
    ∃ inner outer, scopes.levels = inner :: outer ∧ scopes.isTaken name = false ∧
      scopes' = ⟨((name, d) :: inner) :: outer, scopes.declaring⟩ := by
  unfold Scopes.enter at h
  split at h
  · cases h
  · rename_i inner outer hl
    split at h
    · cases h
    · rename_i ht
      cases h
      exact ⟨inner, outer, hl, by simpa using ht, rfl⟩

/-- What the reading of an expression finds in the scopes. -/
structure Sees (E : Setting) (blocks : Blocks) (scopes : Scopes Meaning) : Prop where
  bare : ∀ name, scopes.isBeingDeclared name = false → scopes.find? name = E.bare? blocks name
  method : ∀ name,
    scopes.findMethod Meaning.kind name = (E.member? E.owner name).filter (·.kind == .method)

/-- The open scopes are those of the blocks and parameters, of the members of the class and of the
classes. -/
structure Reflects (E : Setting) (blocks : Blocks) (scopes : Scopes Meaning) : Prop where
  inside : blocks ≠ []
  lookups : scopes.levels.map (fun level name => level.lookup name) =
    E.frames blocks ++ [E.member? E.owner, fun name => (E.class? name).map (.cls ·.name)]

theorem Reflects.find? (h : Reflects E blocks scopes) (name : String) :
    scopes.find? name = E.bare? blocks name := by
  have hmap : scopes.find? name = (scopes.levels.map fun level name => level.lookup name).findSome?
      (· name) := by
    rw [List.findSome?_map]
    rfl
  rw [hmap, h.lookups, List.findSome?_append, E.findSome?_frames h.inside, bare?, Option.or_assoc]
  congr 2
  cases hm : E.member? E.owner name <;> simp [hm]

theorem Reflects.findMethod (h : Reflects E blocks scopes) (name : String) :
    scopes.findMethod Meaning.kind name = (E.member? E.owner name).filter (·.kind == .method) := by
  have hget : (scopes.levels.map fun level name => level.lookup name).reverse[1]? =
      some (E.member? E.owner) := by
    rw [h.lookups]
    simp
  rw [← List.map_reverse, List.getElem?_map] at hget
  obtain ⟨members, hmembers, hlookup⟩ := Option.map_eq_some_iff.mp hget
  rw [Scopes.findMethod, Scopes.findAt?, hmembers, ← hlookup]
  rfl

theorem Reflects.sees (h : Reflects E blocks scopes) : Sees E blocks scopes :=
  ⟨fun name _ => h.find? name, h.findMethod⟩

theorem Reflects.openScope (h : Reflects E blocks scopes) :
    Reflects E ([] :: blocks) scopes.openScope := by
  obtain ⟨hne, hl⟩ := h
  refine ⟨List.cons_ne_nil _ _, ?_⟩
  cases blocks with
  | nil => exact absurd rfl hne
  | cons block blocks =>
    rw [Scopes.openScope, List.map_cons, hl]
    rfl

/-- The names that a new local must not have are those of the locals and parameters in scope. -/
theorem Reflects.isTaken (h : Reflects E blocks scopes) {name : String}
    (hfree : scopes.isTaken name = false) : blocks.nearest? name = none ∧ E.param? name = none := by
  have hrivals : (Scopes.rivals scopes.levels).map (fun level name => level.lookup name) =
      E.frames blocks := by
    have hl := h.lookups
    cases hlevels : scopes.levels with
    | nil => simp [hlevels] at hl
    | cons level levels =>
      have hlen : levels.length - 2 + 1 = (E.frames blocks).length := by
        have := congrArg List.length hl
        obtain ⟨hne, -⟩ := h
        cases blocks with
        | nil => exact absurd rfl hne
        | cons block blocks =>
          have hpos : 0 < (E.frames (block :: blocks)).length := by
            cases blocks <;> simp [frames]
          simp [hlevels] at this
          omega
      rw [Scopes.rivals, ← List.take_succ_cons, List.map_take, hlen, ← hlevels, hl, List.take_left]
  have hnone : (E.frames blocks).findSome? (· name) = none := by
    rw [← hrivals, List.findSome?_eq_none_iff]
    intro f hf
    obtain ⟨level, hlevel, rfl⟩ := List.mem_map.mp hf
    exact Option.not_isSome_iff_eq_none.mp (List.any_eq_false.mp hfree level hlevel)
  rw [E.findSome?_frames h.inside] at hnone
  simpa using hnone

theorem Reflects.declare {k : Nat} {v : Variable} (h : Reflects E blocks scopes)
    (he : scopes.enter v.name (.localVar k v) = .ok (some scopes')) :
    Reflects E (blocks.declare (k, v)) scopes' := by
  obtain ⟨hne, hl⟩ := h
  obtain ⟨inner, outer, hlevels, -, rfl⟩ := enter_eq_some he
  have hlocal (block : List Local) (name : String) :
      localIn ((k, v) :: block) name = if v.name == name then some (.localVar k v)
        else localIn block name := by
    simp only [localIn, List.find?_cons]
    split <;> simp_all
  have hlookup (name : String) : List.lookup name ((v.name, .localVar k v) :: inner) =
      if v.name == name then some (.localVar k v) else inner.lookup name := by
    rw [List.lookup_cons, Bool.beq_comm]
    split <;> simp_all
  refine ⟨by cases blocks <;> simp [Blocks.declare], ?_⟩
  rw [hlevels, List.map_cons] at hl
  rw [List.map_cons]
  cases blocks with
  | nil => exact absurd rfl hne
  | cons block blocks =>
    cases blocks with
    | nil =>
      obtain ⟨hhead, htail⟩ := List.cons.inj hl
      rw [htail]
      refine congrArg (· :: _) (funext fun name => ?_)
      rw [hlookup, congrFun hhead name, hlocal]
      split <;> rfl
    | cons next blocks =>
      obtain ⟨hhead, htail⟩ := List.cons.inj hl
      rw [htail]
      refine congrArg (· :: _) (funext fun name => ?_)
      rw [hlookup, congrFun hhead name, hlocal]

/-- What an initializer sees: the blocks around it, since the name of its variable is marked. -/
theorem Reflects.startDeclaring {k : Nat} {v : Variable} (h : Reflects E blocks scopes)
    (he : scopes.enter v.name (.localVar k v) = .ok (some scopes')) :
    Sees E (v.blocksAround k blocks) (scopes'.startDeclaring v.name) := by
  have hdeclared := h.declare he
  refine ⟨fun name hname => ?_, hdeclared.findMethod⟩
  rw [show (scopes'.startDeclaring v.name).find? name = scopes'.find? name from rfl,
    hdeclared.find?]
  unfold Variable.blocksAround
  split
  · rfl
  · rename_i hnamed
    have hne : (v.name == name) = false := by
      simpa [Scopes.isBeingDeclared, Scopes.startDeclaring, hnamed] using hname
    have hnearest : (blocks.declare (k, v)).nearest? name = blocks.nearest? name := by
      cases blocks <;> simp [Blocks.declare, Blocks.nearest?, localIn, List.findSome?_cons, hne]
    rw [bare?, bare?, hnearest]

end Scopes

section Phrases

variable {ctx : Context} {blocks : Blocks} {scopes : Scopes Meaning}

/-- The setting in which names are read. -/
def Context.setting (ctx : Context) : Setting :=
  ⟨ctx.classes.map ClassDecl.head, ctx.owner, ctx.method⟩

theorem class?_mem {classes : List ClassDecl} {name : String} {c : ClassDecl}
    (h : class? classes name = some c) : c ∈ classes ∧ c.name = name := by
  refine ⟨List.mem_of_find?_eq_some h, ?_⟩
  simpa using List.find?_some h

theorem head_member? (c : ClassDecl) (name : String) : c.head.member? name = c.member? name := by
  unfold ClassHead.member? ClassDecl.member?
  cases h : c.fields.find? (·.name == name) <;> simp [ClassDecl.head, ClassDecl.name, h,
    Function.comp_def]

theorem Context.setting_class? (ctx : Context) (name : String) :
    ctx.setting.class? name = (Resolve.class? ctx.classes name).map ClassDecl.head :=
  List.find?_map

theorem declared_of_type {classes : List ClassDecl} {t : TypeName} (h : type classes t = .ok ()) :
    t.Declared (classes.map ClassDecl.head) := by
  induction t with
  | int | boolean | void => trivial
  | cls id =>
    unfold type at h
    split at h
    · rename_i c hc
      obtain ⟨hmem, hname⟩ := class?_mem hc
      exact ⟨c.head, List.mem_map_of_mem hmem, hname⟩
    · cases h
  | array elem s ih => exact ih h

/-- What the reading of a reference gives: the same reference, which follows the rules. -/
structure RefRead (E : Setting) (blocks : Blocks) (scopes : Scopes Meaning) (r r' : Ref)
    (d : Meaning) : Prop where
  same : r'.unbound = r.unbound
  follows : E.RefScoped blocks r' d
  free : ∀ name, r'.firstName? = some name → scopes.isBeingDeclared name = false

theorem Context.bareName_eq_ok (hs : Sees ctx.setting blocks scopes) {id : Ident} {d : Meaning}
    (h : ctx.bareName scopes id = .ok d) :
    scopes.isBeingDeclared id.name = false ∧ ctx.setting.bare? blocks id.name = some d ∧
      (ctx.method.isStatic = true → d.isInstance = false) := by
  unfold bareName at h
  split at h
  · cases h
  · rename_i hfree
    have hfree : scopes.isBeingDeclared id.name = false := by simpa using hfree
    split at h
    · cases h
    · rename_i d' hfind
      split at h
      · cases h
      · rename_i hstatic
        cases h
        refine ⟨hfree, (hs.bare _ hfree).symm.trans hfind, fun hm => ?_⟩
        simpa [hm] using hstatic

theorem bare?_eq_cls {E : Setting} {name c : String}
    (h : E.bare? blocks name = some (.cls c)) : c = name := by
  rcases bare?_cases h with ⟨block, -, x, -, hd⟩ | ⟨i, v, -, hd⟩ | hmember | ⟨-, hd⟩
  · cases hd
  · cases hd
  · rcases member?_cases hmember with ⟨f, -, hd⟩ | ⟨m, -, hd⟩ <;> cases hd
  · exact Meaning.cls.inj hd

/-- The member that a qualified reference selects from a class: it may be seen from the current
class, and it is no instance member if the qualifier is the name of the class. -/
theorem Context.classMember_eq_ok {q : Ref} {d : Meaning} {id : Ident} {c : ClassDecl}
    (h : ctx.classMember q id c = .ok d) :
    c.member? id.name = some d ∧ (d.isPrivate = true → c.name = ctx.owner) ∧
      ∀ qid m, q = .name qid m → qid.name = c.name → d.isInstance = false := by
  unfold Context.classMember at h
  split at h
  · cases h
  · rename_i m hm
    split at h
    · cases h
    · rename_i hprivate
      have howner : m.isPrivate = true → c.name = ctx.owner := by
        intro hp
        simpa [hp] using hprivate
      split at h
      · split at h
        · cases h
        · rename_i hinstance
          cases h
          refine ⟨hm, howner, ?_⟩
          rintro qid m' hq hname
          obtain ⟨rfl, -⟩ := Ref.name.inj hq
          simpa [hname] using hinstance
      · rename_i hnot
        cases h
        exact ⟨hm, howner, fun qid m' hq _ => absurd hq (hnot qid m')⟩

/-- What a qualified reference selects: the length of an array, or a member of the qualifier's
class. -/
theorem Context.member_cases {q : Ref} {dq d : Meaning} {id : Ident}
    (h : ctx.member q dq id = .ok d) :
    dq.kind ≠ .method ∧ ((∃ t, dq.ty = .array t ∧ id.name = "length" ∧ d = .length) ∨
      ∃ c, class? ctx.classes c.name = some c ∧ dq.ty = .cls c.name ∧
      ctx.classMember q id c = .ok d) := by
  unfold Context.member at h
  split at h
  · cases h
  · rename_i hnot
    refine ⟨fun hkind => ?_, ?_⟩
    · cases dq with
      | method owner m => exact hnot owner m rfl
      | cls | field | param | localVar | length => cases hkind
    · split at h
      · rename_i t ht
        split at h
        · rename_i hname
          cases h
          exact .inl ⟨t, ht, hname, rfl⟩
        · cases h
      · rename_i name ht
        split at h
        · rename_i c hc
          obtain ⟨-, rfl⟩ := class?_mem hc
          exact .inr ⟨c, hc, ht, h⟩
        · cases h
      · cases h

theorem Context.member_scoped {q : Ref} {dq d : Meaning} {id : Ident}
    (hq : ctx.setting.RefScoped blocks q dq) (h : ctx.member q dq id = .ok d) :
    ctx.setting.RefScoped blocks (.member q id (some d)) d := by
  obtain ⟨hkind, ⟨t, ht, hname, rfl⟩ | ⟨c, hc, ht, hsel⟩⟩ := Context.member_cases h
  · exact .length hq hkind ht hname
  · obtain ⟨hmember, hprivate, hinstance⟩ := Context.classMember_eq_ok hsel
    refine .member hq hkind ht ?_ hprivate ?_
    · rw [Setting.member?, ctx.setting_class?, hc, Option.map_some, Option.bind_some, head_member?]
      exact hmember
    · rintro qid rfl
      cases hq with
      | name hbare _ => exact hinstance qid _ rfl (bare?_eq_cls hbare).symm

theorem Context.ref_eq_ok (hs : Sees ctx.setting blocks scopes) {r r' : Ref} {d : Meaning}
    (h : ctx.ref scopes r = .ok (r', d)) : RefRead ctx.setting blocks scopes r r' d := by
  induction r generalizing r' d with
  | this s d' =>
    unfold Context.ref at h
    split at h
    · cases h
    · rename_i hstatic
      cases h
      refine ⟨rfl, .this (by simpa [Context.setting] using hstatic), ?_⟩
      intro name hname
      cases hname
  | name id d' =>
    obtain ⟨d₁, h₁, h₂⟩ := Except.bind_eq_ok.mp h
    cases h₂
    obtain ⟨hfree, hbare, hstatic⟩ := Context.bareName_eq_ok hs h₁
    refine ⟨rfl, .name hbare hstatic, ?_⟩
    intro name hname
    cases hname
    exact hfree
  | member q id d' ih =>
    obtain ⟨⟨q₁, dq⟩, h₁, h₂⟩ := Except.bind_eq_ok.mp h
    obtain ⟨d₂, h₃, h₄⟩ := Except.bind_eq_ok.mp h₂
    cases h₄
    have hq := ih h₁
    refine ⟨?_, Context.member_scoped hq.follows h₃, hq.free⟩
    rw [Ref.unbound, Ref.unbound, hq.same]

theorem Context.callee_eq_ok (hs : Sees ctx.setting blocks scopes) {r r' : Ref}
    (h : ctx.callee scopes r = .ok r') :
    r'.unbound = r.unbound ∧ ctx.setting.CallScoped blocks r' ∧
      ∀ name, r'.calleeName? = some name → scopes.isBeingDeclared name = false := by
  cases r with
  | this s d => cases h
  | name id d =>
    obtain ⟨d₁, h₁, h₂⟩ := Except.bind_eq_ok.mp h
    cases h₂
    refine ⟨rfl, ?_, fun name hname => by cases hname⟩
    unfold bareCall at h₁
    split at h₁
    · cases h₁
    · rename_i d' hfind
      split at h₁
      · cases h₁
      · rename_i hstatic
        cases h₁
        rw [hs.method] at hfind
        obtain ⟨hmember, hkind⟩ := Option.filter_eq_some_iff.mp hfind
        cases d₁ with
        | method owner m =>
          refine .bare hmember fun hm => ?_
          simpa [Context.setting, Meaning.isInstance, show ctx.method.isStatic = true from hm]
            using hstatic
        | cls | field | param | localVar | length => cases hkind
  | member q id d =>
    obtain ⟨⟨r₁, d₁⟩, h₁, h₂⟩ := Except.bind_eq_ok.mp h
    have hr := Context.ref_eq_ok hs h₁
    cases d₁ with
    | method owner m =>
      cases h₂
      obtain ⟨⟨q₁, dq⟩, -, h₄⟩ := Except.bind_eq_ok.mp h₁
      obtain ⟨d₂, -, h₆⟩ := Except.bind_eq_ok.mp h₄
      cases h₆
      exact ⟨hr.same, .member hr.follows, hr.free⟩
    | cls | field | param | localVar | length => cases h₂

/-- What the reading of an expression gives: the same expression, whose references follow the
rules. -/
structure ExprRead (E : Setting) (blocks : Blocks) (scopes : Scopes Meaning)
    (e e' : Expr) : Prop where
  same : e'.unbound = e.unbound
  follows : E.ExprScoped blocks e'
  free : ∀ name ∈ e'.bareNames, scopes.isBeingDeclared name = false

structure ExprsRead (E : Setting) (blocks : Blocks) (scopes : Scopes Meaning)
    (es es' : List Expr) : Prop where
  same : Expr.unboundAll es' = Expr.unboundAll es
  follows : E.ExprsScoped blocks es'
  free : ∀ name ∈ Expr.bareNamesOf es', scopes.isBeingDeclared name = false

mutual

theorem Context.expr_eq_ok (hs : Sees ctx.setting blocks scopes) :
    ∀ {e e' : Expr}, ctx.expr scopes e = .ok e' → ExprRead ctx.setting blocks scopes e e'
  | .unary op s e, e', h => by
    rw [Context.expr] at h
    obtain ⟨e₁, h₁, h₂⟩ := Except.bind_eq_ok.mp h
    cases h₂
    obtain ⟨hsame, hfollows, hfree⟩ := Context.expr_eq_ok hs h₁
    refine ⟨?_, hfollows, hfree⟩
    rw [Expr.unbound, Expr.unbound, hsame]
  | .binary op s l r, e', h => by
    rw [Context.expr] at h
    obtain ⟨l₁, h₁, h₂⟩ := Except.bind_eq_ok.mp h
    obtain ⟨r₁, h₃, h₄⟩ := Except.bind_eq_ok.mp h₂
    cases h₄
    obtain ⟨hsame, hfollows, hfree⟩ := Context.expr_eq_ok hs h₁
    obtain ⟨hsame', hfollows', hfree'⟩ := Context.expr_eq_ok hs h₃
    refine ⟨?_, ⟨hfollows, hfollows'⟩, ?_⟩
    · rw [Expr.unbound, Expr.unbound, hsame, hsame']
    · exact List.forall_mem_append.mpr ⟨hfree, hfree'⟩
  | .ref r, e', h => by
    rw [Context.expr] at h
    obtain ⟨⟨r₁, d⟩, h₁, h₂⟩ := Except.bind_eq_ok.mp h
    cases h₂
    have hr := Context.ref_eq_ok hs h₁
    refine ⟨?_, ⟨d, hr.follows⟩, ?_⟩
    · rw [Expr.unbound, Expr.unbound, hr.same]
    · intro name hname
      exact hr.free name (by simpa [Expr.bareNames] using hname)
  | .index r i s, e', h => by
    rw [Context.expr] at h
    obtain ⟨⟨r₁, d⟩, h₁, h₂⟩ := Except.bind_eq_ok.mp h
    obtain ⟨i₁, h₃, h₄⟩ := Except.bind_eq_ok.mp h₂
    cases h₄
    have hr := Context.ref_eq_ok hs h₁
    obtain ⟨hsame, hfollows, hfree⟩ := Context.expr_eq_ok hs h₃
    refine ⟨?_, ⟨⟨d, hr.follows⟩, hfollows⟩, ?_⟩
    · rw [Expr.unbound, Expr.unbound, hr.same, hsame]
    · exact List.forall_mem_append.mpr ⟨fun name hname => hr.free name (by simpa using hname),
        hfree⟩
  | .call r args s, e', h => by
    rw [Context.expr] at h
    obtain ⟨r₁, h₁, h₂⟩ := Except.bind_eq_ok.mp h
    obtain ⟨args₁, h₃, h₄⟩ := Except.bind_eq_ok.mp h₂
    cases h₄
    obtain ⟨hr, hcall, hcallee⟩ := Context.callee_eq_ok hs h₁
    obtain ⟨hsame, hfollows, hfree⟩ := Context.exprs_eq_ok hs h₃
    refine ⟨?_, ⟨hcall, hfollows⟩, ?_⟩
    · rw [Expr.unbound, Expr.unbound, hr, hsame]
    · exact List.forall_mem_append.mpr ⟨fun name hname => hcallee name (by simpa using hname),
        hfree⟩
  | .literal l s, e', h => by
    rw [Context.expr] at h
    cases h
    refine ⟨rfl, trivial, ?_⟩
    intro name hname
    cases hname
  | .newObject c s, e', h => by
    rw [Context.expr] at h
    obtain ⟨u, h₁, h₂⟩ := Except.bind_eq_ok.mp h
    cases h₂
    refine ⟨rfl, declared_of_type h₁, ?_⟩
    intro name hname
    cases hname
  | .newArray t size s, e', h => by
    rw [Context.expr] at h
    obtain ⟨u, h₁, h₂⟩ := Except.bind_eq_ok.mp h
    obtain ⟨size₁, h₃, h₄⟩ := Except.bind_eq_ok.mp h₂
    cases h₄
    obtain ⟨hsame, hfollows, hfree⟩ := Context.expr_eq_ok hs h₃
    refine ⟨?_, ⟨declared_of_type h₁, hfollows⟩, hfree⟩
    rw [Expr.unbound, Expr.unbound, hsame]

theorem Context.exprs_eq_ok (hs : Sees ctx.setting blocks scopes) :
    ∀ {es es' : List Expr}, ctx.exprs scopes es = .ok es' →
      ExprsRead ctx.setting blocks scopes es es'
  | [], es', h => by
    rw [Context.exprs] at h
    cases h
    refine ⟨rfl, trivial, ?_⟩
    intro name hname
    cases hname
  | e :: es, es', h => by
    rw [Context.exprs] at h
    obtain ⟨e₁, h₁, h₂⟩ := Except.bind_eq_ok.mp h
    obtain ⟨es₁, h₃, h₄⟩ := Except.bind_eq_ok.mp h₂
    cases h₄
    obtain ⟨hsame, hfollows, hfree⟩ := Context.expr_eq_ok hs h₁
    obtain ⟨hsame', hfollows', hfree'⟩ := Context.exprs_eq_ok hs h₃
    refine ⟨?_, ⟨hfollows, hfollows'⟩, ?_⟩
    · rw [Expr.unboundAll, Expr.unboundAll, hsame, hsame']
    · exact List.forall_mem_append.mpr ⟨hfree, hfree'⟩

end

end Phrases

section Statements

variable {ctx : Context} {blocks : Blocks} {σ τ : State} {α : Type}

theorem reading_eq_ok {f : Scopes Meaning → Except NamingError α} {σ τ : State} {a : α} :
    reading f σ = .ok a τ ↔ f σ.scopes = .ok a ∧ σ = τ := by
  unfold reading
  constructor
  · intro h
    split at h
    · rename_i b hb
      cases h
      exact ⟨hb, rfl⟩
    · cases h
  · rintro ⟨h, rfl⟩
    rw [h]

theorem inScope_eq_ok {step : Body α} {σ τ : State} {a : α} (h : inScope step σ = .ok a τ) :
    ∃ υ, step { σ with scopes := σ.scopes.openScope } = .ok a υ ∧ τ = υ.leave := by
  unfold inScope at h
  split at h
  · rename_i b υ hb
    cases h
    exact ⟨υ, hb, rfl⟩
  · cases h

/-- What reading a phrase leaves: as many more locals as it declares, no mark, and the outer scopes
as they were. -/
structure Advances (σ τ : State) (count : Nat) : Prop where
  locals : τ.locals = σ.locals + count
  declaring : τ.scopes.declaring = none
  outer : τ.scopes.levels.tail = σ.scopes.levels.tail

theorem Advances.leave {σ τ : State} {count : Nat} (hnone : σ.scopes.declaring = none)
    (h : Advances { σ with scopes := σ.scopes.openScope } τ count) :
    τ.leave.scopes = σ.scopes ∧ τ.leave.locals = σ.locals + count := by
  refine ⟨?_, h.locals⟩
  have hlevels : τ.scopes.levels.tail = σ.scopes.levels := h.outer
  have hdecl : τ.scopes.declaring = σ.scopes.declaring := h.declaring.trans hnone.symm
  simp only [State.leave, hlevels, hdecl]

/-- What the reading of a statement gives: the same statement, which follows the rules, with the
scopes of the blocks after it. -/
structure StmtRead (E : Setting) (blocks : Blocks) (σ τ : State) (s s' : Stmt) : Prop where
  same : s'.unbound = s.unbound
  follows : E.StmtScoped σ.locals blocks s'
  reflects : Reflects E (s'.blocksAfter σ.locals blocks) τ.scopes
  advances : Advances σ τ s'.locals.length

theorem StmtRead.of_scopes_eq {E : Setting} {s s' : Stmt} (hr : Reflects E blocks σ.scopes)
    (hnone : σ.scopes.declaring = none) (hsame : s'.unbound = s.unbound)
    (hfollows : E.StmtScoped σ.locals blocks s')
    (hafter : s'.blocksAfter σ.locals blocks = blocks) (hscopes : τ.scopes = σ.scopes)
    (hlocals : τ.locals = σ.locals + s'.locals.length) : StmtRead E blocks σ τ s s' := by
  refine ⟨hsame, hfollows, ?_, hlocals, ?_, ?_⟩
  · rw [hafter, hscopes]
    exact hr
  · rw [hscopes]
    exact hnone
  · rw [hscopes]

theorem stmtRead_declare {v : Variable} {init : Expr} {span : Span} {s : Stmt}
    (hr : Reflects ctx.setting blocks σ.scopes) (hnone : σ.scopes.declaring = none)
    (h : stmt ctx (.declare v init span) σ = .ok s τ) :
    StmtRead ctx.setting blocks σ τ (.declare v init span) s := by
  rw [stmt] at h
  obtain ⟨u, σ₁, h₁, h₂⟩ := EStateM.bind_eq_ok.mp h
  obtain ⟨htype, rfl⟩ := reading_eq_ok.mp h₁
  obtain ⟨u', σ₂, h₃, h₄⟩ := EStateM.bind_eq_ok.mp h₂
  obtain ⟨init₁, σ₃, h₅, h₆⟩ := EStateM.bind_eq_ok.mp h₄
  obtain ⟨hinit, rfl⟩ := reading_eq_ok.mp h₅
  cases h₆
  unfold declareLocal at h₃
  split at h₃
  · rename_i scopes he
    cases h₃
    obtain ⟨hsame, hfollows, hfree⟩ := Context.expr_eq_ok (hr.startDeclaring he) hinit
    obtain ⟨top, outer, hlevels, htaken, rfl⟩ := enter_eq_some he
    obtain ⟨hunseen, hparam⟩ := hr.isTaken htaken
    refine ⟨?_, ⟨declared_of_type htype, hunseen, hparam, hfollows, ?_⟩, hr.declare he, rfl, hnone,
      ?_⟩
    · rw [Stmt.unbound, Stmt.unbound, hsame]
    · intro hnamed hmem
      simpa [Scopes.isBeingDeclared, Scopes.startDeclaring, hnamed] using hfree v.name hmem
    · rw [hlevels]
      rfl
  · cases h₃

theorem branch_eq_ok {blocks : Blocks} {s s' : Stmt} {σ τ : State}
    (hr : Reflects ctx.setting blocks σ.scopes) (hnone : σ.scopes.declaring = none)
    (h : inScope (stmt ctx s) σ = .ok s' τ)
    (hstmt : ∀ {σ τ : State}, Reflects ctx.setting ([] :: blocks) σ.scopes →
      σ.scopes.declaring = none → stmt ctx s σ = .ok s' τ →
      StmtRead ctx.setting ([] :: blocks) σ τ s s') :
    s'.unbound = s.unbound ∧ ctx.setting.StmtScoped σ.locals ([] :: blocks) s' ∧
      τ.scopes = σ.scopes ∧
      τ.locals = σ.locals + s'.locals.length := by
  obtain ⟨υ, hs, rfl⟩ := inScope_eq_ok h
  have hread := hstmt (σ := { σ with scopes := σ.scopes.openScope }) hr.openScope hnone hs
  exact ⟨hread.same, hread.follows, hread.advances.leave hnone⟩

mutual

theorem stmt_eq_ok {blocks : Blocks} :
    ∀ {s s' : Stmt} {σ τ : State}, Reflects ctx.setting blocks σ.scopes →
      σ.scopes.declaring = none → stmt ctx s σ = .ok s' τ → StmtRead ctx.setting blocks σ τ s s'
  | .block body span, s', σ, τ, hr, hnone, h => by
    rw [stmt] at h
    obtain ⟨body₁, σ₁, h₁, h₂⟩ := EStateM.bind_eq_ok.mp h
    cases h₂
    obtain ⟨υ, hbody, rfl⟩ := inScope_eq_ok h₁
    obtain ⟨hsame, hfollows, ha⟩ :=
      stmts_eq_ok (σ := { σ with scopes := σ.scopes.openScope }) hr.openScope hnone hbody
    obtain ⟨hscopes, hlocals⟩ := ha.leave hnone
    refine .of_scopes_eq hr hnone ?_ hfollows rfl hscopes hlocals
    rw [Stmt.unbound, Stmt.unbound, hsame]
  | .declare v init span, s', σ, τ, hr, hnone, h => stmtRead_declare hr hnone h
  | .assign r value span, s', σ, τ, hr, hnone, h => by
    rw [stmt] at h
    obtain ⟨⟨r₁, d⟩, σ₁, h₁, h₂⟩ := EStateM.bind_eq_ok.mp h
    obtain ⟨href, rfl⟩ := reading_eq_ok.mp h₁
    obtain ⟨value₁, σ₂, h₃, h₄⟩ := EStateM.bind_eq_ok.mp h₂
    obtain ⟨hvalue, rfl⟩ := reading_eq_ok.mp h₃
    cases h₄
    have hread := Context.ref_eq_ok hr.sees href
    have hread' := Context.expr_eq_ok hr.sees hvalue
    refine .of_scopes_eq hr hnone ?_ ⟨⟨d, hread.follows⟩, hread'.follows⟩ rfl rfl rfl
    rw [Stmt.unbound, Stmt.unbound, hread.same, hread'.same]
  | .assignIndex r i value span, s', σ, τ, hr, hnone, h => by
    rw [stmt] at h
    obtain ⟨⟨r₁, d⟩, σ₁, h₁, h₂⟩ := EStateM.bind_eq_ok.mp h
    obtain ⟨href, rfl⟩ := reading_eq_ok.mp h₁
    obtain ⟨i₁, σ₂, h₃, h₄⟩ := EStateM.bind_eq_ok.mp h₂
    obtain ⟨hi, rfl⟩ := reading_eq_ok.mp h₃
    obtain ⟨value₁, σ₃, h₅, h₆⟩ := EStateM.bind_eq_ok.mp h₄
    obtain ⟨hvalue, rfl⟩ := reading_eq_ok.mp h₅
    cases h₆
    have hread := Context.ref_eq_ok hr.sees href
    have hread' := Context.expr_eq_ok hr.sees hi
    have hread'' := Context.expr_eq_ok hr.sees hvalue
    refine .of_scopes_eq hr hnone ?_ ⟨⟨d, hread.follows⟩, hread'.follows, hread''.follows⟩ rfl rfl
      rfl
    rw [Stmt.unbound, Stmt.unbound, hread.same, hread'.same, hread''.same]
  | .call r args span, s', σ, τ, hr, hnone, h => by
    rw [stmt] at h
    obtain ⟨r₁, σ₁, h₁, h₂⟩ := EStateM.bind_eq_ok.mp h
    obtain ⟨hcallee, rfl⟩ := reading_eq_ok.mp h₁
    obtain ⟨args₁, σ₂, h₃, h₄⟩ := EStateM.bind_eq_ok.mp h₂
    obtain ⟨hargs, rfl⟩ := reading_eq_ok.mp h₃
    cases h₄
    obtain ⟨hsame, hcall, -⟩ := Context.callee_eq_ok hr.sees hcallee
    have hread := Context.exprs_eq_ok hr.sees hargs
    refine .of_scopes_eq hr hnone ?_ ⟨hcall, hread.follows⟩ rfl rfl rfl
    rw [Stmt.unbound, Stmt.unbound, hsame, hread.same]
  | .ret none span, s', σ, τ, hr, hnone, h => by
    rw [stmt] at h
    cases h
    exact .of_scopes_eq hr hnone rfl trivial rfl rfl rfl
  | .ret (some value) span, s', σ, τ, hr, hnone, h => by
    rw [stmt] at h
    obtain ⟨value₁, σ₁, h₁, h₂⟩ := EStateM.bind_eq_ok.mp h
    obtain ⟨hvalue, rfl⟩ := reading_eq_ok.mp h₁
    cases h₂
    have hread := Context.expr_eq_ok hr.sees hvalue
    refine .of_scopes_eq hr hnone ?_ hread.follows rfl rfl rfl
    rw [Stmt.unbound, Stmt.unbound, hread.same]
  | .ifThen cond t span, s', σ, τ, hr, hnone, h => by
    rw [stmt] at h
    obtain ⟨cond₁, σ₁, h₁, h₂⟩ := EStateM.bind_eq_ok.mp h
    obtain ⟨hcond, rfl⟩ := reading_eq_ok.mp h₁
    obtain ⟨t₁, σ₂, h₃, h₄⟩ := EStateM.bind_eq_ok.mp h₂
    cases h₄
    have hread := Context.expr_eq_ok hr.sees hcond
    obtain ⟨hsame, hfollows, hscopes, hlocals⟩ := branch_eq_ok hr hnone h₃ stmt_eq_ok
    refine .of_scopes_eq hr hnone ?_ ⟨hread.follows, hfollows⟩ rfl hscopes hlocals
    rw [Stmt.unbound, Stmt.unbound, hread.same, hsame]
  | .ifElse cond t e span, s', σ, τ, hr, hnone, h => by
    rw [stmt] at h
    obtain ⟨cond₁, σ₁, h₁, h₂⟩ := EStateM.bind_eq_ok.mp h
    obtain ⟨hcond, rfl⟩ := reading_eq_ok.mp h₁
    obtain ⟨t₁, σ₂, h₃, h₄⟩ := EStateM.bind_eq_ok.mp h₂
    obtain ⟨e₁, σ₃, h₅, h₆⟩ := EStateM.bind_eq_ok.mp h₄
    cases h₆
    have hread := Context.expr_eq_ok hr.sees hcond
    obtain ⟨hsame, hfollows, hscopes, hlocals⟩ := branch_eq_ok hr hnone h₃ stmt_eq_ok
    obtain ⟨hsame', hfollows', hscopes', hlocals'⟩ :=
      branch_eq_ok (hscopes ▸ hr) (hscopes ▸ hnone) h₅ stmt_eq_ok
    refine .of_scopes_eq hr hnone ?_ ⟨hread.follows, hfollows, hlocals ▸ hfollows'⟩ rfl
      (hscopes'.trans hscopes) ?_
    · rw [Stmt.unbound, Stmt.unbound, hread.same, hsame, hsame']
    · rw [Stmt.locals, List.length_append, hlocals', hlocals, Nat.add_assoc]
  | .loop cond body span, s', σ, τ, hr, hnone, h => by
    rw [stmt] at h
    obtain ⟨cond₁, σ₁, h₁, h₂⟩ := EStateM.bind_eq_ok.mp h
    obtain ⟨hcond, rfl⟩ := reading_eq_ok.mp h₁
    obtain ⟨body₁, σ₂, h₃, h₄⟩ := EStateM.bind_eq_ok.mp h₂
    cases h₄
    have hread := Context.expr_eq_ok hr.sees hcond
    obtain ⟨hsame, hfollows, hscopes, hlocals⟩ := branch_eq_ok hr hnone h₃ stmt_eq_ok
    refine .of_scopes_eq hr hnone ?_ ⟨hread.follows, hfollows⟩ rfl hscopes hlocals
    rw [Stmt.unbound, Stmt.unbound, hread.same, hsame]

theorem stmts_eq_ok {blocks : Blocks} :
    ∀ {ss ss' : List Stmt} {σ τ : State}, Reflects ctx.setting blocks σ.scopes →
      σ.scopes.declaring = none → stmts ctx ss σ = .ok ss' τ →
      Stmt.unboundAll ss' = Stmt.unboundAll ss ∧ ctx.setting.StmtsScoped σ.locals blocks ss' ∧
      Advances σ τ (Stmt.localsOf ss').length
  | [], ss', σ, τ, hr, hnone, h => by
    rw [stmts] at h
    cases h
    exact ⟨rfl, trivial, rfl, hnone, rfl⟩
  | s :: ss, ss', σ, τ, hr, hnone, h => by
    rw [stmts] at h
    obtain ⟨s₁, σ₁, h₁, h₂⟩ := EStateM.bind_eq_ok.mp h
    obtain ⟨ss₁, σ₂, h₃, h₄⟩ := EStateM.bind_eq_ok.mp h₂
    cases h₄
    have hread := stmt_eq_ok hr hnone h₁
    have hlocals := hread.advances.locals
    obtain ⟨hsame, hfollows, ha⟩ := stmts_eq_ok hread.reflects hread.advances.declaring h₃
    refine ⟨?_, ⟨hread.follows, hlocals ▸ hfollows⟩, ?_, ha.declaring,
      ha.outer.trans hread.advances.outer⟩
    · rw [Stmt.unboundAll, Stmt.unboundAll, hread.same, hsame]
    · rw [Stmt.localsOf, List.length_append, ha.locals, hlocals, Nat.add_assoc]

end

end Statements

end Resolve

end MiniJava
