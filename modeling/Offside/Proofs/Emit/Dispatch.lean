import Offside.Emit.Statement
import Offside.Proofs.Class.Registry

/-!
# Methods that are called

A call of the method that a class defines itself names a class of the program and one of the methods
of that class, and a call that is chosen by the class of its first argument names a method that some
class has (`Resolves`).
-/

namespace Offside.Emit

open Target

theorem memberName_of_isPrivate_eq_false {name : String} (h : isPrivate name = false)
    (owner : Option String) : memberName name owner = escape name := by
  cases owner <;> simp [memberName, mangle, h]

theorem memberName_initializerName (owner : Option String) :
    memberName initializerName owner = initializerName :=
  memberName_of_isPrivate_eq_false (by decide) owner

/-- A method of a superclass is looked for in a registered class. -/
theorem contains_superTarget {scope : Scope} (hclosed : scope.registry.IsClosed)
    {superclass : Option String} {location : Location} {start : String × String}
    (h : superTarget scope superclass location = .ok start) :
    scope.registry.contains start.2 := by
  unfold superTarget at h
  split at h
  · split at h
    · split at h
      · cases h
        assumption
      · cases h
    · split at h
      · rename_i name hname
        cases h
        obtain ⟨c, hc, hsuperclass⟩ := Option.bind_eq_some_iff.mp hname
        exact hclosed c (List.mem_of_find?_eq_some hc) name hsuperclass
      · cases h
  · cases h

/-- Whether a class has the method that a tag stands for: it defines the method, or the tag stands
for the initializer, which neither the class nor a superclass defines. -/
def HasForm (registry : ClassRegistry) (c : ClassDef) (tag : String) : Prop :=
  (∃ f ∈ c.methods, tag = memberName f.name c.name) ∨
    tag = initializerName ∧ (registry.owner? c.name initializerName).isNone = true

/-- If the expression is a call of a method, then some class has the method.  If it is a call of a
statistics function, then such calls are emitted as calls of this function. -/
def Resolves (registry : ClassRegistry) : Code → Prop
  | .statistic function _ => ∃ name, callForm name = .statistics function
  | .staticCall owner method _ =>
    ∃ c ∈ registry.latestFirst, owner = escape c.name ∧ HasForm registry c method
  | .methodCall tag _ =>
    ∃ method owner, tag = memberName method owner ∧
      (method = initializerName ∨ registry.anyDeclares method = true)
  | _ => True

theorem exists_method_of_declares {c : ClassDef} {method : String} (h : c.declares method) :
    ∃ f ∈ c.methods, f.name = method := by
  simpa [ClassDef.declares] using h

/-- The target of a call of a method of a registered class. -/
theorem hasForm_staticTarget {scope : Scope} {className method : String} {location : Location}
    {target : String × String} (hclass : scope.registry.contains className)
    (h : staticTarget scope className method location = .ok target) :
    ∃ c ∈ scope.registry.latestFirst, target.1 = escape c.name ∧
      HasForm scope.registry c target.2 := by
  unfold staticTarget at h
  split at h
  · rename_i owner howner
    unfold ClassRegistry.owner? at howner
    have hdeclares := List.find?_some howner
    obtain ⟨f, hf, rfl⟩ := exists_method_of_declares hdeclares
    cases h
    exact ⟨owner, ClassRegistry.mem_of_mem_chain (List.mem_of_find?_eq_some howner), rfl,
      .inl ⟨f, hf, rfl⟩⟩
  · rename_i hnone
    split at h
    · rename_i hmethod
      subst hmethod
      cases h
      obtain ⟨c, hc, rfl⟩ := ClassRegistry.contains_iff.mp hclass
      refine ⟨c, hc, rfl, .inr ⟨memberName_initializerName (some c.name), ?_⟩⟩
      rw [hnone]
      rfl
    · cases h

end Offside.Emit
