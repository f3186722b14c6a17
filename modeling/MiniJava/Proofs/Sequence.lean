/-!
Sequences. A sequence of steps that may fail succeeds if each step does, and each hands its result
on.
-/
namespace MiniJava

theorem Except.bind_eq_ok {ε α β : Type} {x : Except ε α} {f : α → Except ε β} {b : β} :
    (x >>= f) = .ok b ↔ ∃ a, x = .ok a ∧ f a = .ok b := by
  cases x with
  | error e =>
    constructor
    · intro h; cases h
    · rintro ⟨a, h, -⟩; cases h
  | ok a =>
    constructor
    · intro h; exact ⟨a, rfl, h⟩
    · rintro ⟨a', h, hf⟩; cases h; exact hf

theorem EStateM.bind_of_ok {ε σ α β : Type} {x : EStateM ε σ α} {f : α → EStateM ε σ β} {s t : σ}
    {a : α} (h : x s = .ok a t) : (x >>= f) s = f a t := by
  simp only [bind, EStateM.bind, h]

theorem EStateM.bind_of_error {ε σ α β : Type} {x : EStateM ε σ α} {f : α → EStateM ε σ β}
    {s t : σ} {e : ε} (h : x s = .error e t) : (x >>= f) s = .error e t := by
  simp only [bind, EStateM.bind, h]

theorem EStateM.bind_eq_ok {ε σ α β : Type} {x : EStateM ε σ α} {f : α → EStateM ε σ β} {s t : σ}
    {b : β} : (x >>= f) s = .ok b t ↔ ∃ a u, x s = .ok a u ∧ f a u = .ok b t := by
  cases hx : x s with
  | error e u =>
    rw [EStateM.bind_of_error hx]
    constructor
    · intro h; cases h
    · rintro ⟨a, v, h, -⟩; cases h
  | ok a u =>
    rw [EStateM.bind_of_ok hx]
    constructor
    · intro h; exact ⟨a, u, rfl, h⟩
    · rintro ⟨a', v, h, hf⟩; cases h; exact hf

@[simp] theorem Except.ok_bind {ε α β : Type} (a : α)
    (f : α → Except ε β) : (Except.ok a >>= f) = f a := rfl

@[simp] theorem Except.map_ok {ε α β : Type} (f : α → β) (a : α) :
    f <$> (Except.ok a : Except ε α) = .ok (f a) := rfl

@[simp] theorem Except.pure_eq_ok {ε α : Type}
    {a b : α} : (pure a : Except ε α) = .ok b ↔ a = b := by
  constructor
  · intro h; cases h; rfl
  · intro h; cases h; rfl

@[simp] theorem EStateM.pure_eq_ok {ε σ α : Type} {s t : σ} {a b : α} :
    (pure a : EStateM ε σ α) s = .ok b t ↔ a = b ∧ s = t := by
  constructor
  · intro h; cases h; exact ⟨rfl, rfl⟩
  · rintro ⟨rfl, rfl⟩; rfl

theorem getElem?_of_mapM {ε α β : Type} {f : α → Except ε β} {xs : List α} {ys : List β}
    (h : xs.mapM f = .ok ys) {i : Nat} {x : α}
    (hx : xs[i]? = some x) : ∃ y, f x = .ok y ∧ ys[i]? = some y := by
  induction xs generalizing i ys with
  | nil => cases hx
  | cons a xs ih =>
    rw [List.mapM_cons] at h
    obtain ⟨b, hb, h⟩ := Except.bind_eq_ok.mp h
    obtain ⟨bs, hbs, h⟩ := Except.bind_eq_ok.mp h
    cases h
    cases i with
    | zero => cases hx; exact ⟨b, hb, rfl⟩
    | succ i => exact ih hbs hx

theorem length_of_mapM {ε α β : Type} {f : α → Except ε β} {xs : List α} {ys : List β}
    (h : xs.mapM f = .ok ys) : xs.length = ys.length := by
  induction xs generalizing ys with
  | nil => cases h; rfl
  | cons a xs ih =>
    rw [List.mapM_cons] at h
    obtain ⟨b, -, h⟩ := Except.bind_eq_ok.mp h
    obtain ⟨bs, hbs, h⟩ := Except.bind_eq_ok.mp h
    cases h
    simp [ih hbs]

theorem exists_of_mem_mapM {ε α β : Type} {f : α → Except ε β} {xs : List α} {ys : List β}
    (h : xs.mapM f = .ok ys) {y : β} (hy : y ∈ ys) : ∃ x ∈ xs, f x = .ok y := by
  obtain ⟨i, hi, rfl⟩ := List.getElem_of_mem hy
  have hx : xs[i]? = some (xs.get ⟨i, length_of_mapM h ▸ hi⟩) := List.getElem?_eq_getElem _
  obtain ⟨z, hz, hget⟩ := getElem?_of_mapM h hx
  rw [List.getElem?_eq_getElem hi, Option.some_inj] at hget
  exact ⟨_, List.mem_of_getElem? hx, hget ▸ hz⟩

theorem exists_mapM {ε α β : Type} {f : α → Except ε β} {xs : List α}
    (h : ∀ x ∈ xs, ∃ y, f x = .ok y) : ∃ ys, xs.mapM f = .ok ys := by
  induction xs with
  | nil => exact ⟨[], rfl⟩
  | cons x xs ih =>
    obtain ⟨⟨y, hy⟩, hxs⟩ := List.forall_mem_cons.mp h
    obtain ⟨ys, hys⟩ := ih hxs
    exact ⟨y :: ys, by rw [List.mapM_cons, hy, hys]; rfl⟩

theorem mapM_eq_error {ε α β : Type} {f : α → Except ε β} {xs ys : List α} {x : α} {e : ε}
    (hxs : ∀ y ∈ xs, ∃ z, f y = .ok z)
    (hx : f x = .error e) : (xs ++ x :: ys).mapM f = .error e := by
  obtain ⟨zs, hzs⟩ := exists_mapM hxs
  rw [List.mapM_append, hzs, List.mapM_cons, hx]
  rfl

theorem mapM_replicate {ε α β : Type} {f : α → Except ε β} {a : α} {b : β} (h : f a = .ok b)
    (n : Nat) : (List.replicate n a).mapM f = .ok (List.replicate n b) := by
  induction n with
  | zero => rfl
  | succ n ih => rw [List.replicate_succ, List.mapM_cons, h, Except.ok_bind, ih]; rfl

theorem map_mapIdx_eq_map {α β γ : Type} {f : Nat → α → β} {g : β → γ} {h : α → γ} {l : List α}
    (hfg : ∀ i a, g (f i a) = h a) : (l.mapIdx f).map g = l.map h := by
  refine List.ext_getElem? fun i => ?_
  simp [Function.comp_def, hfg]

end MiniJava
