import Offside.Class.Registry

/-!
# Registered classes

What it takes to register a class, and what holds of the classes that were registered one behind the
other: they are kept in order, and every superclass is among them.
-/

namespace Offside.ClassRegistry

open List

variable {c : ClassDef} {r r' : ClassRegistry}

/-- A class is registered under a new name, behind its superclass. -/
theorem register_eq_ok_iff :
    r.register c = .ok r' ↔ r.contains c.name = false ∧ (∀ s ∈ c.superclass, r.contains s) ∧
      r' = ⟨c :: r.latestFirst⟩ := by
  have hknown : c.superclass.filter (!r.contains ·) = none ↔ ∀ s ∈ c.superclass, r.contains s := by
    simp [Option.filter_eq_none_iff]
  unfold register
  by_cases hnew : r.contains c.name
  · simp [hnew]
  · rw [if_neg hnew]
    cases hfilter : c.superclass.filter (!r.contains ·) with
    | some superclass =>
      constructor
      · intro h
        cases h
      · rintro ⟨-, hall, -⟩
        exact absurd (hfilter.symm.trans (hknown.mpr hall)) (Option.some_ne_none _)
    | none =>
      constructor
      · intro h
        cases h
        exact ⟨eq_false_of_ne_true hnew, hknown.mp hfilter, rfl⟩
      · rintro ⟨-, -, rfl⟩
        rfl

/-- Classes are registered one behind the other. -/
inductive Registers : ClassRegistry → List ClassDef → ClassRegistry → Prop
  | nil {r : ClassRegistry} : Registers r [] r
  | cons {r mid r' : ClassRegistry} {c : ClassDef} {rest : List ClassDef}
    (hfirst : r.register c = .ok mid) (hrest : Registers mid rest r') : Registers r (c :: rest) r'

theorem Registers.classes_eq {classes : List ClassDef} (h : Registers r classes r') :
    r'.classes = r.classes ++ classes := by
  induction h with
  | nil => simp
  | cons hfirst hrest ih =>
    obtain ⟨-, -, rfl⟩ := register_eq_ok_iff.mp hfirst
    rw [ih]
    simp [ClassRegistry.classes]

theorem mem_classes : c ∈ r.classes ↔ c ∈ r.latestFirst :=
  mem_reverse

/-- The superclasses of a class are registered classes. -/
theorem mem_of_mem_chain {latestFirst : List ClassDef} {name : String}
    (h : c ∈ chain latestFirst name) :
    c ∈ latestFirst := by
  induction latestFirst generalizing name with
  | nil => exact h
  | cons d earlier ih =>
    rw [chain] at h
    split at h
    · split at h
      · rcases mem_cons.mp h with rfl | h
        · simp
        · exact mem_cons_of_mem _ (ih h)
      · rw [mem_singleton.mp h]
        simp
    · exact mem_cons_of_mem _ (ih h)

/-- The superclass of every class is registered. -/
def IsClosed (r : ClassRegistry) : Prop :=
  ∀ c ∈ r.latestFirst, ∀ s ∈ c.superclass, r.contains s = true

theorem isClosed_empty : empty.IsClosed := forall_mem_nil _

theorem contains_iff {name : String} : r.contains name ↔ ∃ c ∈ r.latestFirst, c.name = name := by
  simp [contains]

theorem IsClosed.register (hr : r.IsClosed) (h : r.register c = .ok r') : r'.IsClosed := by
  obtain ⟨-, hknown, rfl⟩ := register_eq_ok_iff.mp h
  have hlater {s : String} (hs : r.contains s) : contains ⟨c :: r.latestFirst⟩ s := by
    obtain ⟨d, hd, rfl⟩ := contains_iff.mp hs
    exact contains_iff.mpr ⟨d, mem_cons_of_mem _ hd, rfl⟩
  intro d hd s hs
  rcases mem_cons.mp hd with rfl | hd
  · exact hlater (hknown s hs)
  · exact hlater (hr d hd s hs)

theorem Registers.isClosed {classes : List ClassDef} (h : Registers r classes r')
    (hr : r.IsClosed) : r'.IsClosed := by
  induction h with
  | nil => exact hr
  | cons hfirst hrest ih => exact ih (hr.register hfirst)

end Offside.ClassRegistry
