import Offside.Proofs.Class.Ancestors
import Offside.Proofs.Reader.SimpleRelocation

/-!
# Registries over whole runs

Classes are registered one after the other, and some of them are refused.  Whatever was tried
before, a class that is refused leaves the registry as it was, and the registry is founded.  So its
order, its look-up and the chains of superclasses fit together (`registerEach_isSound`).
-/

namespace Offside

namespace ClassRegistry

/-- The order of a registry holds the names under which classes are found, each of them once, and a
superclass stands before its subclasses. -/
structure InOrder (r : ClassRegistry) : Prop where
  nodup : r.order.Nodup
  keys (name : String) : name ∈ r.order ↔ (r.get? name).isSome = true
  named {name : String} {c : ClassDef} (h : r.get? name = some c) : c.name = name
  earlier {name : String} {c : ClassDef} (h : r.get? name = some c) {s : String}
    (hs : s ∈ c.superclass) : s ∈ r.order ∧ r.position s < r.position name

/-- A chain is the whole walk from a name: a class of that name and its superclasses, the nearest
first. All of them are different, and each was registered before those that lead to it. -/
structure IsLineage (r : ClassRegistry) (name : String) (chain : List ClassDef) : Prop where
  walk (other : List ClassDef) : r.Walk (some name) other ↔ other = chain
  distinct : (chain.map ClassDef.name).Nodup
  starts : chain.head? = r.get? name
  descends : chain.Pairwise fun c d => r.position d.name < r.position c.name
  ends : ∀ c ∈ chain.getLast?, c.superclass = none

/-- An owner of a method is the first class of a chain with a body that defines the method. -/
structure IsFirstOwner (chain : List ClassDef) (method : String)
    (owner? : Option ClassDef) : Prop where
  found {c : ClassDef} (h : owner? = some c) : ∃ nearer further, chain = nearer ++ c :: further ∧
    (∃ f, Statement.function f ∈ c.body ∧ f.name = method) ∧
    ∀ d ∈ nearer, ¬∃ f, Statement.function f ∈ d.body ∧ f.name = method
  missing : owner? = none ↔ ∀ c ∈ chain, ¬∃ f, Statement.function f ∈ c.body ∧ f.name = method

section Founded

variable {r : ClassRegistry}

theorem Founded.inOrder (hr : Founded r) : r.InOrder where
  nodup := hr.nodup_order
  keys _ := mem_order_iff_isSome_get?
  named h := (hr.get?_eq_some_iff.mp h).2
  earlier h _ hs := by
    obtain ⟨hmem, rfl⟩ := hr.get?_eq_some_iff.mp h
    exact hr.position_superclass_lt hmem hs

theorem Founded.isLineage (hr : Founded r) (name : String) :
    r.IsLineage name (r.ancestors name) where
  walk _ := hr.walk_iff
  distinct := hr.nodup_ancestors name
  starts := hr.head?_ancestors name
  descends := hr.pairwise_ancestors name
  ends := hr.superclass_of_getLast? name

theorem isFirstOwner_owner? (r : ClassRegistry) (name method : String) :
    IsFirstOwner (r.ancestors name) method (r.owner? name method) where
  found h := by
    obtain ⟨hc, nearer, further, hchain, hnearer⟩ := owner?_eq_some_iff.mp h
    refine ⟨nearer, further, hchain, declares_iff.mp hc, ?_⟩
    intro d hd hdeclares
    exact absurd (declares_iff.mpr hdeclares) (by simp [hnearer d hd])
  missing := by
    rw [owner?_eq_none_iff]
    simp only [← declares_iff, Bool.not_eq_true]

end Founded

end ClassRegistry

namespace Reader

/-- What a call that registers a class does: the class is entered behind all others, or it is
refused for its name or for its superclass and the registry stays as it was. -/
inductive Registering (c : ClassDef) (r : Reader) : Prop
  | entered (hnew : c.name ∉ r.registry.order) (hknown : ∀ s ∈ c.superclass, s ∈ r.registry.order)
    {r' : Reader} (hcall : registerClass c r = .ok () r')
    (hclasses : r'.registry.classes = r.registry.classes ++ [c])
  | duplicate (hname : c.name ∈ r.registry.order) {r' : Reader}
    (hcall : registerClass c r = .error (.semantic ⟨.duplicateClass c.name, c.span.start⟩) r')
    (hsame : r'.registry = r.registry)
  | unknown (hnew : c.name ∉ r.registry.order) {s : String} (hs : s ∈ c.superclass)
    (hunknown : s ∉ r.registry.order) {r' : Reader}
    (hcall : registerClass c r = .error (.semantic ⟨.unknownSuperclass c.name s, c.span.start⟩) r')
    (hsame : r'.registry = r.registry)

theorem registering_registerClass (c : ClassDef) (r : Reader) : Registering c r := by
  have hcall := registerClass_eq c r
  have hmem {name : String} : name ∈ r.registry.order ↔ r.registry.contains name :=
    ClassRegistry.contains_iff_mem_order.symm
  cases hregister : r.registry.register c with
  | ok registry =>
    rw [hregister] at hcall
    obtain ⟨hnew, hknown, rfl⟩ := ClassRegistry.register_eq_ok_iff.mp hregister
    refine .entered ?_ ?_ hcall ?_
    · rw [hmem, hnew]
      decide
    · intro s hs
      exact hmem.mpr (hknown s hs)
    · exact List.reverse_cons
  | error e =>
    rw [hregister] at hcall
    unfold ClassRegistry.register at hregister
    split at hregister
    · rename_i hname
      cases hregister
      exact .duplicate (hmem.mpr hname) hcall rfl
    · rename_i hname
      split at hregister
      · rename_i s hs
        cases hregister
        obtain ⟨hs, hunknown⟩ := Option.filter_eq_some_iff.mp hs
        refine .unknown ?_ hs ?_ hcall rfl
        · rwa [hmem]
        · rw [hmem]
          simpa using hunknown
      · cases hregister

/-- The state that a step ends in, also when it fails. -/
def after {α : Type} (x : Read α) (r : Reader) : Reader :=
  match x r with
  | .ok _ r' => r'
  | .error _ r' => r'

/-- The reader behind some calls that register a class, one after the other, whether they fail or
not. -/
def registerEach (classes : List ClassDef) (r : Reader) : Reader :=
  classes.foldl (fun r c => after (registerClass c) r) r

theorem founded_after_registerClass {r : Reader} (hr : r.registry.Founded) (c : ClassDef) :
    (after (registerClass c) r).registry.Founded := by
  unfold after
  rw [registerClass_eq]
  cases hregister : r.registry.register c with
  | ok registry => exact hr.register hregister
  | error e => exact hr

theorem founded_registerEach {r : Reader} (hr : r.registry.Founded) (classes : List ClassDef) :
    (registerEach classes r).registry.Founded := by
  induction classes generalizing r with
  | nil => exact hr
  | cons c classes ih => exact ih (founded_after_registerClass hr c)

/-- Behind any calls that register a class from the registry without classes on, whether they failed
or not, the order of registration, the look-up of classes, the chains of superclasses and the owners
of methods are as they should be, and a further call that fails leaves the registry as it is. -/
theorem registerEach_isSound (tokens : List Token) (names : NameTable) (classes : List ClassDef) :
    let reader := registerEach classes (.ofTokens tokens names)
    let r := reader.registry
    r.InOrder ∧ (∀ c, Registering c reader) ∧ ∀ name, r.IsLineage name (r.ancestors name) ∧
      ∀ method, ClassRegistry.IsFirstOwner (r.ancestors name) method (r.owner? name method) := by
  intro reader r
  have hr : r.Founded := founded_registerEach (r := .ofTokens tokens names) .empty classes
  refine ⟨hr.inOrder, ?_, ?_⟩
  · intro c
    exact registering_registerClass c reader
  · intro name
    exact ⟨hr.isLineage name, fun method => r.isFirstOwner_owner? name method⟩

end Reader

end Offside
