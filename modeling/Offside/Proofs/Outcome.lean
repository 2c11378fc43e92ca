/-!
# Outcomes of steps

Layouts and emitted expressions are computed in steps that may fail; scanners, readers and emission
are steps with a state.  A step that succeeds was put together from steps that succeeded.
-/

namespace Offside

open List

theorem eq_ok_of_toOption {ε α : Type} {x : Except ε α} {a : α} (h : x.toOption = some a) :
    x = .ok a := by
  cases x with
  | error e => cases h
  | ok b => exact congrArg Except.ok (Option.some.inj h)

/-- The step that a computation with a result ends with. -/
theorem exists_of_bind_eq_ok {ε α β : Type} {x : Except ε α} {f : α → Except ε β} {b : β}
    (h : x >>= f = .ok b) : ∃ a, x = .ok a ∧ f a = .ok b := by
  cases x with
  | error e => cases h
  | ok a => exact ⟨a, rfl, h⟩

/-- The result of a step that is used by a function. -/
theorem exists_of_map_eq_ok {ε α β : Type} {x : Except ε α} {f : α → β} {b : β}
    (h : (do return f (← x)) = Except.ok b) : ∃ a, x = .ok a ∧ f a = b := by
  obtain ⟨a, ha, h⟩ := exists_of_bind_eq_ok h
  exact ⟨a, ha, Except.ok.inj h⟩

/-- The results of two steps that are used by a function. -/
theorem exists_of_map₂_eq_ok {ε α β γ : Type} {x : Except ε α} {y : Except ε β} {f : α → β → γ}
    {c : γ} (h : (do let a ← x; return f a (← y)) = Except.ok c) :
    ∃ a b, x = .ok a ∧ y = .ok b ∧ f a b = c := by
  obtain ⟨a, ha, h⟩ := exists_of_bind_eq_ok h
  obtain ⟨b, hb, h⟩ := exists_of_bind_eq_ok h
  exact ⟨a, b, ha, hb, Except.ok.inj h⟩

/-- What a state has at first, and keeps in every step along a list, it has at the end. -/
theorem of_foldlM {ε α β : Type} {f : β → α → Except ε β} (P : β → Prop) {xs : List α}
    (hstep : ∀ x ∈ xs, ∀ b b', P b → f b x = .ok b' → P b') {b b' : β} (hb : P b)
    (h : xs.foldlM f b = .ok b') : P b' := by
  induction xs generalizing b with
  | nil =>
    cases h
    exact hb
  | cons x xs ih =>
    obtain ⟨hx, hxs⟩ := forall_mem_cons.mp hstep
    rw [foldlM_cons] at h
    obtain ⟨mid, hmid, h⟩ := exists_of_bind_eq_ok h
    exact ih hxs (hx b mid hb hmid) h

section Errors

variable {ε ε' α β : Type} {f : ε → ε'}

/-- The errors of two steps are mapped one by one. -/
theorem mapError_bind (x : Except ε α) (k : α → Except ε β) :
    (x >>= k).mapError f = x.mapError f >>= fun a => (k a).mapError f := by
  cases x <;> rfl

theorem mapError_pure (a : α) : (pure a : Except ε α).mapError f = pure a := rfl

theorem mapError_ok (a : α) : (Except.ok a).mapError f = .ok a := rfl

theorem mapError_map (x : Except ε α) (g : α → β) :
    (x.map g).mapError f = (x.mapError f).map g := by
  cases x <;> rfl

theorem toOption_of_mapError {x : Except ε α} {a : α} (h : x.mapError f = .ok a) :
    x.toOption = some a := by
  cases x with
  | ok b => exact congrArg some (Except.ok.inj h)
  | error e => cases h

/-- Steps that carry a state along a list, where each step has the errors of another, mapped. -/
theorem foldlM_map_eq_mapError {γ γ' : Type} {g : γ → γ'} {k : α → γ → Except ε α}
    {k' : α → γ' → Except ε' α} (h : ∀ a x, k' a (g x) = (k a x).mapError f) (xs : List γ) (a : α) :
    (xs.map g).foldlM k' a = (xs.foldlM k a).mapError f := by
  induction xs generalizing a with
  | nil => rfl
  | cons x xs ih =>
    rw [map_cons, foldlM_cons, foldlM_cons, mapError_bind, h]
    simp only [ih]

/-- Steps on the elements of a list, where each step has the errors of another, mapped. -/
theorem mapM_map_eq_mapError {γ γ' : Type} {g : γ → γ'} {k : γ → Except ε β} {k' : γ' → Except ε' β}
    (h : ∀ x, k' (g x) = (k x).mapError f) (xs : List γ) :
    (xs.map g).mapM k' = (xs.mapM k).mapError f := by
  induction xs with
  | nil => rfl
  | cons x xs ih =>
    rw [map_cons, mapM_cons, mapM_cons, h, ih]
    simp only [mapError_bind, mapError_pure]

end Errors

section Steps

variable {ε σ α β : Type} {s s' : σ}

/-- A step that is followed by another. -/
theorem exists_of_step_bind {x : EStateM ε σ α} {f : α → EStateM ε σ β} {b : β}
    (h : (x >>= f) s = .ok b s') : ∃ a mid, x s = .ok a mid ∧ f a mid = .ok b s' := by
  change EStateM.bind x f s = _ at h
  unfold EStateM.bind at h
  split at h
  · rename_i a mid hx
    exact ⟨a, mid, hx, h⟩
  · cases h

/-- A step whose result is used by a function. -/
theorem exists_of_step_map {x : EStateM ε σ α} {f : α → β} {b : β} (h : (f <$> x) s = .ok b s') :
    ∃ a, x s = .ok a s' ∧ f a = b := by
  change EStateM.map f x s = _ at h
  unfold EStateM.map at h
  split at h
  · rename_i a mid hx
    cases h
    exact ⟨a, hx, rfl⟩
  · cases h

/-- A step that cannot fail, followed by another. -/
theorem bind_eq_of_step {x : StateM σ α} {f : α → StateM σ β} {a : α} (h : x s = (a, s')) :
    (x >>= f) s = f a s' := by
  change f (x s).1 (x s).2 = _
  rw [h]

/-- A step from which only the result is kept. -/
theorem exists_of_run'_eq_some {x : EStateM ε σ α} {a : α} (h : x.run' s = some a) :
    ∃ s', x s = .ok a s' := by
  unfold EStateM.run' at h
  split at h
  · rename_i b mid hx
    cases h
    exact ⟨mid, hx⟩
  · cases h

end Steps

end Offside
