import MiniJava.Proofs.Order.Rearranged
import MiniJava.Proofs.Typing.Accepted
/-!
The order of declarations decides nothing: a program is accepted exactly if it is accepted in any
other order of its classes and their members, and it then starts at the same method.
-/
namespace MiniJava

namespace Check

theorem methods_errors_eq_nil_iff {ms : List Method} :
    (methods ms).errors = [] ↔ ∀ m ∈ ms, (method m).errors = [] := by
  induction ms with
  | nil => exact ⟨fun _ => List.forall_mem_nil _, fun _ => rfl⟩
  | cons m ms ih =>
    rw [List.forall_mem_cons, ← ih]
    exact List.append_eq_nil_iff

theorem classes_errors_eq_nil_iff {cs : List ClassDecl} :
    (classes cs).errors = [] ↔ ∀ m ∈ cs.flatMap ClassDecl.methods, (method m).errors = [] := by
  induction cs with
  | nil => exact ⟨fun _ => List.forall_mem_nil _, fun _ => rfl⟩
  | cons c cs ih =>
    rw [List.flatMap_cons, List.forall_mem_append, ← ih, ← methods_errors_eq_nil_iff]
    exact List.append_eq_nil_iff

end Check

namespace Program

variable {p q : Program}

theorem Rearranges.mains (h : p.Rearranges q) : p.mains.Perm q.mains := by
  refine h.flatMap fun c d hcd => ?_
  rw [hcd.name_eq]
  exact (hcd.methods.filter _).map _

theorem check_entry_of_mains {key : MethodKey} {m : Signature}
    (h : p.mains = [(key, m)]) : p.check.entry = some key := by
  simp [check, h]

theorem Rearranges.check (h : p.Rearranges q) (hp : p.check.errors = []) :
    q.check.errors = [] ∧ ∃ key, p.check.entry = some key ∧ q.check.entry = some key := by
  obtain ⟨⟨key, m, hmains⟩, hclasses⟩ := check_errors_eq_nil_iff.mp hp
  have hmains' : q.mains = [(key, m)] := List.perm_singleton.mp (hmains ▸ h.mains.symm)
  have hmethods :
      (p.classes.flatMap ClassDecl.methods).Perm (q.classes.flatMap ClassDecl.methods) :=
    h.flatMap fun _ _ hcd => hcd.methods
  refine ⟨check_errors_eq_nil_iff.mpr ⟨⟨key, m, hmains'⟩, Check.classes_errors_eq_nil_iff.mpr
    fun m hm => ?_⟩, key,
    check_entry_of_mains hmains, check_entry_of_mains hmains'⟩
  exact Check.classes_errors_eq_nil_iff.mp hclasses m (hmethods.mem_iff.mpr hm)

theorem Rearranges.accepted (h : p.Rearranges q)
    (hp : ∃ r, p.resolve = .ok r ∧ r.check.errors = []) :
    ∃ s, q.resolve = .ok s ∧ s.check.errors = [] := by
  obtain ⟨r, hr, herrors⟩ := hp
  obtain ⟨s, hs, hrs⟩ := h.resolve hr
  exact ⟨s, hs, (hrs.check herrors).1⟩

/-- Whether a program is accepted, and where it then starts, does not depend on the order of its
classes, of their fields and of their methods. -/
theorem accepted_in_any_order (h : p.Rearranges q) :
    ((∃ r, p.resolve = .ok r ∧ r.check.errors = []) ↔
      ∃ s, q.resolve = .ok s ∧ s.check.errors = []) ∧
      ∀ r s, p.resolve = .ok r → q.resolve = .ok s → r.check.errors = [] → s.check.errors = [] →
        ∃ key, r.check.entry = some key ∧ s.check.entry = some key := by
  refine ⟨⟨h.accepted, h.symm.accepted⟩, ?_⟩
  intro r s hr hs hrerrors _
  obtain ⟨s', hs', hrs⟩ := h.resolve hr
  cases hs.symm.trans hs'
  exact (hrs.check hrerrors).2

/-- A method that calls the method `callee` of the field `next`. -/
def relay (name callee : String) : Method where
  name := name
  type := .int (.line 2)
  span := .line 2
  isPrivate := false
  isStatic := false
  params := []
  body :=
    [.ret (some (.call (.member (.name ⟨"next", .line 2⟩ none) ⟨callee, .line 2⟩ none) []
    (.line 2))) (.line 2)]

/-- A field with the name and the class given. -/
def linkField (name cls : String) : Field :=
  { name := name, type := .cls ⟨cls, .line 1⟩, span := .line 1,
    isPrivate := false, isStatic := false }

def emptyMain : Method where
  name := "main"
  type := .void (.line 3)
  span := .line 3
  isPrivate := false
  isStatic := true
  params := [⟨"args", .array (.cls ⟨"String", .line 3⟩) (.line 3), .line 3⟩]
  body := []

/-- Two classes that use each other, with the entry method in the first. -/
def mutualUse : Program where
  classes := [
    ⟨⟨"Ping", .line 1⟩, .line 1, [linkField "next" "Pong", linkField "self" "Ping"],
      [relay "ping" "pong", emptyMain]⟩,
    ⟨⟨"Pong", .line 1⟩, .line 1, [linkField "next" "Ping"], [relay "pong" "ping"]⟩]
  span := .line 1

/-- The same classes in the other order, and so the members of the one that has several. -/
def mutualUseReversed : Program where
  classes := [
    ⟨⟨"Pong", .line 1⟩, .line 1, [linkField "next" "Ping"], [relay "pong" "ping"]⟩,
    ⟨⟨"Ping", .line 1⟩, .line 1, [linkField "self" "Ping", linkField "next" "Pong"],
      [emptyMain, relay "ping" "pong"]⟩]
  span := .line 1

theorem mutualUse_rearranges : mutualUse.Rearranges mutualUseReversed := by
  refine ⟨mutualUseReversed.classes.reverse, ?_, List.reverse_perm _⟩
  exact .cons ⟨rfl, rfl, .swap _ _ _, .swap _ _ _⟩ (.cons ⟨rfl, rfl, .refl _, .refl _⟩ .nil)

theorem mutualUse_accepted : ∃ r, mutualUse.resolve = .ok r ∧ r.check.errors = [] := ⟨_, rfl, rfl⟩

theorem mutualUse_accepted_in_any_order :
    mutualUse.Rearranges mutualUseReversed ∧
      (∃ s, mutualUseReversed.resolve = .ok s ∧ s.check.errors = []) ∧
      ∀ r s, mutualUse.resolve = .ok r → mutualUseReversed.resolve = .ok s → r.check.errors = [] →
        s.check.errors = [] → ∃ key, r.check.entry = some key ∧ s.check.entry = some key :=
  ⟨mutualUse_rearranges, (accepted_in_any_order mutualUse_rearranges).1.mp mutualUse_accepted,
    (accepted_in_any_order mutualUse_rearranges).2⟩

end Program

end MiniJava
