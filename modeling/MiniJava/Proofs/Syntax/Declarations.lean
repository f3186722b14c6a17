import MiniJava.Proofs.Scope.Declared
import MiniJava.Proofs.Syntax.Sound
import MiniJava.Proofs.Token.Reading
/-!
What the grammar grants about declarations: fields, parameters and locals never have type void, nor
arrays of void, and locals have names.
-/
namespace MiniJava

/-- The types of fields, parameters, locals and array elements. -/
def Ty.isStorable : Ty → Bool
  | int | boolean | cls _ => true
  | array elem => elem.isStorable
  | void | null | error => false

/-- A declaration that the grammar admits. -/
structure Variable.Admitted (v : Variable) : Prop where
  storable : v.type.ty.isStorable = true
  named : v.name ≠ ""

/-- A class all of whose declarations the grammar admits. -/
structure ClassDecl.Admitted (c : ClassDecl) : Prop where
  fields : ∀ f ∈ c.fields, f.type.ty.isStorable = true
  params : ∀ m ∈ c.methods, ∀ v ∈ m.params, v.type.ty.isStorable = true
  locals : ∀ m ∈ c.methods, ∀ v ∈ m.locals, v.Admitted

namespace Scan

theorem wordSymbol_name {word name : String}
    (h : wordSymbol word = .identifier name) : name = word := by
  unfold wordSymbol at h
  split at h
  · cases h
  · cases h; rfl

theorem longestRun_name {c : Char} {cs : List Char} {name : String}
    (h : (longestRun c cs).1 = .identifier name) : name ≠ "" := by
  unfold longestRun at h
  split at h
  · cases h
  · split at h
    · rw [wordSymbol_name h]
      intro hempty
      simpa using congrArg String.toList hempty
    · cases h

theorem lexeme_name {c : Char} {cs : List Char} {name : String} :
    (lexeme c cs).1 = .identifier name → name ≠ "" := by
  fun_cases lexeme c cs <;> grind [oneOrTwo_symbol, longestRun_name]

theorem tokens_name {source : Bytes} {t : Token} (ht : t ∈ tokens source) {name : String}
    (h : t.symbol = .identifier name) : name ≠ "" := by
  rcases symbol_of_mem_tokens ht with heq | heq | ⟨c, cs, heq⟩
  · cases heq.symm.trans h
  · cases heq.symm.trans h
  · exact lexeme_name (heq.symm.trans h)

end Scan

namespace Grammar

theorem SpellsType.storable {ss : List Symbol} {t : TypeName}
    (h : SpellsType ss t) : t.ty.isStorable = true := by
  cases h <;> rfl

mutual

theorem SpellsStmt.locals_admitted :
    ∀ {ss s}, SpellsStmt ss s → (∀ x, .identifier x ∈ ss → x ≠ "") → ∀ v ∈ s.locals, v.Admitted
  | _, _, .block h, hnamed => h.locals_admitted fun x hx => hnamed x (by simp [hx])
  | _, _, .declare ht _, hnamed => List.forall_mem_singleton.mpr ⟨ht.storable, hnamed _ (by simp)⟩
  | _, _, .assign _ _, _ => List.forall_mem_nil _
  | _, _, .assignIndex _ _ _, _ => List.forall_mem_nil _
  | _, _, .call _ _, _ => List.forall_mem_nil _
  | _, _, .retVoid, _ => List.forall_mem_nil _
  | _, _, .ret _, _ => List.forall_mem_nil _
  | _, _, .ifThen _ ht, hnamed => ht.locals_admitted fun x hx => hnamed x (by simp [hx])
  | _, _, .ifElse _ ht he, hnamed => List.forall_mem_append.mpr
      ⟨ht.locals_admitted fun x hx => hnamed x (by simp [hx]), he.locals_admitted fun x hx =>
        hnamed x (by simp [hx])⟩
  | _, _, .loop _ hb, hnamed => hb.locals_admitted fun x hx => hnamed x (by simp [hx])

theorem SpellsStmts.locals_admitted :
    ∀ {ss body}, SpellsStmts ss body → (∀ x, .identifier x ∈ ss → x ≠ "") →
      ∀ v ∈ Stmt.localsOf body, v.Admitted
  | _, _, .nil, _ => List.forall_mem_nil _
  | _, _, .cons hs hbody, hnamed => List.forall_mem_append.mpr
      ⟨hs.locals_admitted fun x hx => hnamed x (by simp [hx]), hbody.locals_admitted fun x hx =>
        hnamed x (by simp [hx])⟩

end

theorem SpellsParams.storable {ss : List Symbol} {vs : List Variable} (h : SpellsParams ss vs) :
    ∀ v ∈ vs, v.type.ty.isStorable = true := by
  induction h with
  | single ht => exact List.forall_mem_singleton.mpr ht.storable
  | cons ht _ ih => exact List.forall_mem_cons.mpr ⟨ht.storable, ih⟩

theorem SpellsMembers.admitted {ss : List Symbol} {ms : List Parser.Member}
    (h : SpellsMembers ss ms) (hnamed : ∀ x, .identifier x ∈ ss → x ≠ "") :
    ∀ m ∈ ms, (∀ f, m.field? = some f → f.type.ty.isStorable = true) ∧ ∀ x, m.method? = some x →
      (∀ v ∈ x.params, v.type.ty.isStorable = true) ∧ ∀ v ∈ x.locals, v.Admitted := by
  induction h with
  | nil => exact List.forall_mem_nil _
  | cons hm _ ih =>
    refine List.forall_mem_cons.mpr ⟨?_, ih fun x hx => hnamed x (List.mem_append_right _ hx)⟩
    cases hm with
    | field _ _ ht =>
      refine ⟨fun f hf => ?_, fun x hx => ?_⟩
      · cases hf
        exact ht.storable
      · cases hx
    | method _ _ _ hparams hbody =>
      refine ⟨fun f hf => (by cases hf), fun x hx => ?_⟩
      cases hx
      refine ⟨?_, hbody.locals_admitted fun x hx => hnamed x (by simp [hx])⟩
      cases hparams with
      | nil => exact List.forall_mem_nil _
      | list hparams => exact hparams.storable

theorem SpellsClasses.admitted {ss : List Symbol} {cs : List ClassDecl} (h : SpellsClasses ss cs)
    (hnamed : ∀ x, .identifier x ∈ ss → x ≠ "") : ∀ c ∈ cs, c.Admitted := by
  induction h with
  | nil => exact List.forall_mem_nil _
  | cons hc _ ih =>
    refine List.forall_mem_cons.mpr ⟨?_, ih fun x hx => hnamed x (List.mem_append_right _ hx)⟩
    cases hc with
    | mk hms =>
      have hmembers := hms.admitted fun x hx => hnamed x (by simp [hx])
      refine ⟨?_, ?_, ?_⟩
      · intro f hf
        obtain ⟨m, hm, hf⟩ := List.mem_filterMap.mp hf
        exact (hmembers m hm).1 f hf
      · intro x hx
        obtain ⟨m, hm, hx⟩ := List.mem_filterMap.mp hx
        exact ((hmembers m hm).2 x hx).1
      · intro x hx
        obtain ⟨m, hm, hx⟩ := List.mem_filterMap.mp hx
        exact ((hmembers m hm).2 x hx).2

end Grammar

mutual

theorem Stmt.locals_shape : ∀ s : Stmt, s.shape.locals = s.locals.map Variable.shape
  | .block body _ => Stmt.localsOf_shapes body
  | .declare _ _ _ | .assign _ _ _ | .assignIndex _ _ _ _ | .call _ _ _ | .ret none _ |
      .ret (some _) _ => rfl
  | .ifThen _ t _ => t.locals_shape
  | .ifElse _ t e _ => by
    rw [Stmt.shape, Stmt.locals, Stmt.locals, t.locals_shape, e.locals_shape, List.map_append]
  | .loop _ body _ => body.locals_shape

theorem Stmt.localsOf_shapes :
    ∀ ss : List Stmt, Stmt.localsOf (Stmt.shapes ss) = (Stmt.localsOf ss).map Variable.shape
  | [] => rfl
  | s :: ss => by
    rw [Stmt.shapes, Stmt.localsOf, Stmt.localsOf, s.locals_shape, Stmt.localsOf_shapes ss,
      List.map_append]

end

theorem ClassDecl.admitted_of_shape {c : ClassDecl} (h : c.shape.Admitted) : c.Admitted := by
  have hshape (t : TypeName) : t.shape.ty.isStorable = true → t.ty.isStorable = true := by
    rw [t.ty_shape]
    exact fun h => h
  refine ⟨?_, ?_, ?_⟩
  · intro f hf
    exact hshape _ (h.fields f.shape (List.mem_map_of_mem hf))
  · intro m hm v hv
    exact hshape _ (h.params m.shape (List.mem_map_of_mem hm) v.shape (List.mem_map_of_mem hv))
  · intro m hm v hv
    have hmem : v.shape ∈ m.shape.locals := by
      have hlocals : m.shape.locals = m.locals.map Variable.shape := Stmt.localsOf_shapes m.body
      exact hlocals ▸ List.mem_map_of_mem hv
    have hadmitted := h.locals m.shape (List.mem_map_of_mem hm) v.shape hmem
    exact ⟨hshape _ hadmitted.storable, hadmitted.named⟩

namespace Program

theorem admitted_of_parse {source : Bytes} {p : Program}
    (h : parse source = .ok p) : ∀ c ∈ p.classes, c.Admitted := by
  obtain ⟨body, hbody, hnot⟩ := Scan.symbols_ended source
  obtain ⟨hspells, -⟩ := spells_of_ofTokens hbody hnot h
  have hnamed : ∀ x, .identifier x ∈ body → x ≠ "" := by
    intro x hx
    have hmem : .identifier x ∈ (Scan.tokens source).map (·.symbol) := by
      rw [hbody]
      exact List.mem_append_left _ hx
    obtain ⟨t, ht, hsymbol⟩ := List.mem_map.mp hmem
    exact Scan.tokens_name ht hsymbol
  intro c hc
  refine ClassDecl.admitted_of_shape ?_
  cases hspells with
  | mk hclasses => exact hclasses.admitted hnamed c.shape (List.mem_map_of_mem hc)

theorem admitted_of_resolve {p q : Program} (h : p.resolve = .ok q)
    (hp : ∀ c ∈ p.classes, c.Admitted) : ∀ c ∈ q.classes, c.Admitted := by
  intro c' hc'
  obtain ⟨hsame, -⟩ := resolve_eq_ok h
  have hmem : c'.unbound ∈ p.classes.map ClassDecl.unbound := by
    have hclasses : q.classes.map ClassDecl.unbound = p.classes.map ClassDecl.unbound :=
      congrArg Program.classes hsame
    exact hclasses ▸ List.mem_map_of_mem hc'
  obtain ⟨c, hc, hunbound⟩ := List.mem_map.mp hmem
  have hadmitted := hp c hc
  have hmethod (m' : Method) (hm' : m' ∈ c'.methods) : ∃ m ∈ c.methods, m.unbound = m'.unbound := by
    have : m'.unbound ∈ c.unbound.methods := hunbound ▸ List.mem_map_of_mem hm'
    exact List.mem_map.mp this
  have hfields : c.unbound.fields = c'.unbound.fields := congrArg ClassDecl.fields hunbound
  refine ⟨show ∀ f ∈ c'.unbound.fields, _ from hfields ▸ hadmitted.fields, ?_, ?_⟩
  · intro m' hm'
    obtain ⟨m, hm, heq⟩ := hmethod m' hm'
    have hparams : m.unbound.params = m'.unbound.params := congrArg (·.params) heq
    exact show ∀ v ∈ m'.unbound.params, _ from hparams ▸ hadmitted.params m hm
  · intro m' hm'
    obtain ⟨m, hm, heq⟩ := hmethod m' hm'
    rw [← m'.locals_unbound, ← heq, m.locals_unbound]
    exact hadmitted.locals m hm

end Program

end MiniJava
