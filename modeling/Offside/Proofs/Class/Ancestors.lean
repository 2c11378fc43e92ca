import Mathlib.Data.List.Nodup
import Offside.Proofs.Class.Registry

/-!
# Chains of superclasses

That the chain of superclasses of a class ends is recorded nowhere.  It follows from how classes are
registered: under a new name, and behind their superclass (`Founded`).  A class is then found by
look-up where it was registered, and the walk that looks up one superclass after the other (`Walk`)
passes through ever earlier classes, up to one without a superclass.

All that is said about chains is shown by induction on them (`Founded.induction`), which is an
induction on the place of a class in the order of registration.
-/

namespace Offside.ClassRegistry

open List

variable {name : String} {c : ClassDef} {r : ClassRegistry}

/-! ## The order of registration -/

/-- The names of the classes, in the order in which they were registered. -/
def order (r : ClassRegistry) : List String := r.classes.map ClassDef.name

/-- The place of a name in the order of registration. -/
def position (r : ClassRegistry) (name : String) : Nat := r.order.idxOf name

theorem mem_order :
    name ∈ r.order ↔ ∃ c ∈ r.latestFirst, c.name = name := by
  simp [order, classes]

section Latest

variable {earlier : List ClassDef}

theorem order_cons : order ⟨c :: earlier⟩ = order ⟨earlier⟩ ++ [c.name] := by
  simp [order, classes]

/-- A class that is registered later does not move the earlier ones. -/
theorem position_cons_of_mem (h : name ∈ order ⟨earlier⟩) :
    position ⟨c :: earlier⟩ name = position ⟨earlier⟩ name := by
  rw [position, order_cons, idxOf_append_of_mem h, position]

theorem position_cons_self (h : c.name ∉ order ⟨earlier⟩) :
    position ⟨c :: earlier⟩ c.name = (order ⟨earlier⟩).length := by
  rw [position, order_cons, idxOf_append_of_notMem h, idxOf_cons_self, Nat.add_zero]

end Latest

/-! ## Founded registries -/

/-- Every class was registered under a new name and behind its superclass.  The latest class comes
first. -/
inductive Founded : ClassRegistry → Prop
  | empty : Founded ⟨[]⟩
  | cons {c : ClassDef} {earlier : List ClassDef} (hnew : c.name ∉ order ⟨earlier⟩)
    (hknown : ∀ s ∈ c.superclass, s ∈ order ⟨earlier⟩) (h : Founded ⟨earlier⟩) :
    Founded ⟨c :: earlier⟩

theorem contains_iff_mem_order :
    r.contains name ↔ name ∈ r.order := by
  rw [contains_iff, mem_order]

theorem Founded.register {r r' : ClassRegistry} (hr : Founded r) (h : r.register c = .ok r') :
    Founded r' := by
  obtain ⟨hnew, hknown, rfl⟩ := register_eq_ok_iff.mp h
  refine .cons ?_ ?_ hr
  · intro hmem
    rw [contains_iff_mem_order.mpr hmem] at hnew
    cases hnew
  · intro s hs
    exact contains_iff_mem_order.mp (hknown s hs)

theorem Registers.founded {r r' : ClassRegistry} {classes : List ClassDef}
    (h : Registers r classes r') (hr : Founded r) : Founded r' := by
  induction h with
  | nil => exact hr
  | cons hfirst hrest ih => exact ih (hr.register hfirst)

section Founded

variable (hr : Founded r)

include hr

theorem Founded.nodup_order : r.order.Nodup := by
  induction hr with
  | empty => exact nodup_nil
  | cons hnew _ _ ih =>
    rw [order_cons, nodup_append]
    refine ⟨ih, nodup_singleton _, ?_⟩
    intro a ha b hb hab
    rw [mem_singleton.mp hb] at hab
    exact hnew (hab ▸ ha)

/-- A class is found under its name, and nothing else is. -/
theorem Founded.get?_eq_some_iff :
    r.get? name = some c ↔ c ∈ r.latestFirst ∧ c.name = name := by
  constructor
  · intro h
    exact ⟨mem_of_find?_eq_some h, by simpa using find?_some h⟩
  · rintro ⟨hc, rfl⟩
    induction hr with
    | empty => cases hc
    | @cons d earlier hnew _ _ ih =>
      rw [get?, find?_cons]
      rcases mem_cons.mp hc with rfl | hc
      · simp
      · have hne : d.name ≠ c.name := by
          intro heq
          exact hnew (mem_order.mpr ⟨c, hc, heq.symm⟩)
        rw [beq_false_of_ne hne]
        exact ih hc

omit hr in
theorem mem_order_iff_isSome_get? : name ∈ r.order ↔ (r.get? name).isSome := by
  rw [mem_order, get?, find?_isSome]
  simp

/-- The superclass of a class was registered before it. -/
theorem Founded.position_superclass_lt (hc : c ∈ r.latestFirst) {s : String}
    (hs : s ∈ c.superclass) : s ∈ r.order ∧ r.position s < r.position c.name := by
  induction hr with
  | empty => cases hc
  | @cons d earlier hnew hknown _ ih =>
    rcases mem_cons.mp hc with rfl | hc
    · have hmem : s ∈ order ⟨earlier⟩ := hknown s hs
      rw [order_cons, position_cons_of_mem hmem, position_cons_self hnew]
      exact ⟨mem_append_left _ hmem, idxOf_lt_length_iff.mpr hmem⟩
    · obtain ⟨hmem, hlt⟩ := ih hc
      rw [order_cons, position_cons_of_mem hmem, position_cons_of_mem (mem_order.mpr ⟨c, hc, rfl⟩)]
      exact ⟨mem_append_left _ hmem, hlt⟩

/-- Induction along chains of superclasses: a property of a name may be shown from that of the
superclass of the class that has the name. -/
theorem Founded.induction {P : String → Prop}
    (step : ∀ name, (∀ c, r.get? name = some c → ∀ s ∈ c.superclass, P s) → P name)
    (name : String) :
    P name := by
  induction hn : r.position name using Nat.strongRecOn generalizing name with
  | _ n ih =>
    refine step name ?_
    intro c hc s hs
    obtain ⟨hmem, hname⟩ := hr.get?_eq_some_iff.mp hc
    have hlt := (hr.position_superclass_lt hmem hs).2
    rw [hname, hn] at hlt
    exact ih _ hlt s rfl

end Founded

/-! ## The chain of a class -/

/-- The walk from a class to its superclasses, which looks up one name after the other.  It stops
behind a class without a superclass, and at a name that no class has. -/
inductive Walk (r : ClassRegistry) : Option String → List ClassDef → Prop
  | stop : Walk r none []
  | unknown {name : String} (h : r.get? name = none) : Walk r (some name) []
  | step {name : String} {c : ClassDef} {rest : List ClassDef} (h : r.get? name = some c)
    (hrest : Walk r c.superclass rest) : Walk r (some name) (c :: rest)

/-- A walk has only one way to go. -/
theorem Walk.unique {start : Option String} {chain chain' : List ClassDef} (h : r.Walk start chain)
    (h' : r.Walk start chain') : chain = chain' := by
  induction h generalizing chain' with
  | stop =>
    cases h'
    rfl
  | unknown hnone =>
    cases h' with
    | unknown _ => rfl
    | step hsome _ =>
      rw [hnone] at hsome
      cases hsome
  | step hsome _ ih =>
    cases h' with
    | unknown hnone =>
      rw [hsome] at hnone
      cases hnone
    | step hsome' hrest' =>
      obtain rfl := Option.some.inj (hsome.symm.trans hsome')
      rw [ih hrest']

/-- Among the earlier classes and one more, the chain of an earlier class is the same. -/
theorem chain_cons_of_mem {earlier : List ClassDef} (hnew : c.name ∉ order ⟨earlier⟩)
    (hname : name ∈ order ⟨earlier⟩) :
    chain (c :: earlier) name = chain earlier name := by
  have hne : c.name ≠ name := by
    intro heq
    exact hnew (heq ▸ hname)
  rw [chain, if_neg hne]

section Founded

variable (hr : Founded r)

include hr

/-- The chain of a class is the class and the chain of its superclass, looked up among all classes.
-/
theorem Founded.ancestors_eq (name : String) :
    r.ancestors name =
      match r.get? name with
      | none => []
      | some c => c :: (c.superclass.map r.ancestors).getD [] := by
  unfold ancestors
  induction hr with
  | empty => rfl
  | @cons c earlier hnew hknown h ih =>
    -- a superclass of a class in this list never is the latest class
    have hlater {s : Option String} (hs : ∀ t ∈ s, t ∈ order ⟨earlier⟩) :
        (s.map (chain (c :: earlier))).getD [] = (s.map (chain earlier)).getD [] := by
      cases s with
      | none => rfl
      | some t => exact chain_cons_of_mem hnew (hs t rfl)
    by_cases hname : c.name = name
    · subst hname
      rw [chain, if_pos rfl, get?, find?_cons, beq_self_eq_true]
      dsimp only
      rw [hlater hknown]
      cases c.superclass <;> rfl
    · rw [chain, if_neg hname, ih, get?, get?, find?_cons, beq_false_of_ne hname]
      dsimp only
      cases hfound : earlier.find? (·.name == name) with
      | none => rfl
      | some d =>
        dsimp only
        have hd : d ∈ earlier := mem_of_find?_eq_some hfound
        rw [hlater fun t ht => (h.position_superclass_lt hd ht).1]

theorem Founded.ancestors_of_none (h : r.get? name = none) :
    r.ancestors name = [] := by
  rw [hr.ancestors_eq, h]

theorem Founded.ancestors_of_some (h : r.get? name = some c) :
    r.ancestors name = c :: (c.superclass.map r.ancestors).getD [] := by
  rw [hr.ancestors_eq, h]

/-- The walk from a class ends, and it passes through the chain of the class. -/
theorem Founded.walk_iff {chain : List ClassDef} :
    r.Walk (some name) chain ↔ chain = r.ancestors name := by
  have hwalk : ∀ name, r.Walk (some name) (r.ancestors name) := by
    refine hr.induction ?_
    intro name ih
    cases hget : r.get? name with
    | none =>
      rw [hr.ancestors_of_none hget]
      exact .unknown hget
    | some c =>
      rw [hr.ancestors_of_some hget]
      refine .step hget ?_
      cases hs : c.superclass with
      | none => exact .stop
      | some s => exact ih c hget s hs
  constructor
  · intro h
    exact h.unique (hwalk name)
  · rintro rfl
    exact hwalk name

/-- The classes of a chain were registered no later than its first class. -/
theorem Founded.position_le_of_mem_ancestors (hc : c ∈ r.ancestors name) :
    r.position c.name ≤ r.position name := by
  revert c
  refine hr.induction (P := fun name =>
    ∀ {c : ClassDef}, c ∈ r.ancestors name → r.position c.name ≤ r.position name) ?_ name
  intro name ih d hd
  cases hget : r.get? name with
  | none =>
    rw [hr.ancestors_of_none hget] at hd
    cases hd
  | some c =>
    obtain ⟨hmem, rfl⟩ := hr.get?_eq_some_iff.mp hget
    rw [hr.ancestors_of_some hget] at hd
    rcases mem_cons.mp hd with rfl | hd
    · exact Nat.le_refl _
    · cases hs : c.superclass with
      | none =>
        rw [hs] at hd
        cases hd
      | some s =>
        rw [hs] at hd
        have hlt := (hr.position_superclass_lt hmem hs).2
        exact Nat.le_of_lt (Nat.lt_of_le_of_lt (ih c hget s hs hd) hlt)

/-- A chain runs through ever earlier classes. -/
theorem Founded.pairwise_ancestors (name : String) :
    (r.ancestors name).Pairwise fun c d => r.position d.name < r.position c.name := by
  refine hr.induction (P := fun name => (r.ancestors name).Pairwise _) ?_ name
  intro name ih
  cases hget : r.get? name with
  | none =>
    rw [hr.ancestors_of_none hget]
    exact .nil
  | some c =>
    obtain ⟨hmem, rfl⟩ := hr.get?_eq_some_iff.mp hget
    rw [hr.ancestors_of_some hget]
    cases hs : c.superclass with
    | none => exact pairwise_singleton _ _
    | some s =>
      refine .cons ?_ (ih c hget s hs)
      intro d hd
      exact Nat.lt_of_le_of_lt (hr.position_le_of_mem_ancestors hd)
        (hr.position_superclass_lt hmem hs).2

theorem Founded.nodup_ancestors (name : String) : ((r.ancestors name).map ClassDef.name).Nodup := by
  rw [nodup_iff_pairwise_ne, pairwise_map]
  refine (hr.pairwise_ancestors name).imp ?_
  intro c d hlt heq
  rw [heq] at hlt
  exact Nat.lt_irrefl _ hlt

theorem Founded.head?_ancestors (name : String) : (r.ancestors name).head? = r.get? name := by
  cases hget : r.get? name with
  | none => rw [hr.ancestors_of_none hget, head?_nil]
  | some c => rw [hr.ancestors_of_some hget, head?_cons]

/-- A chain ends at a class without a superclass. -/
theorem Founded.superclass_of_getLast? (name : String) :
    ∀ c ∈ (r.ancestors name).getLast?, c.superclass = none := by
  refine hr.induction (P := fun name => ∀ c ∈ (r.ancestors name).getLast?,
    c.superclass = none) ?_ name
  intro name ih d hd
  cases hget : r.get? name with
  | none =>
    rw [hr.ancestors_of_none hget] at hd
    cases hd
  | some c =>
    rw [hr.ancestors_of_some hget] at hd
    cases hs : c.superclass with
    | none =>
      rw [hs] at hd
      obtain rfl : c = d := by simpa using hd
      exact hs
    | some s =>
      rw [hs] at hd
      -- the superclass is registered, so its chain goes on
      obtain ⟨hmem, -⟩ := hr.get?_eq_some_iff.mp hget
      have hknown := mem_order_iff_isSome_get?.mp (hr.position_superclass_lt hmem hs).1
      have hne : r.ancestors s ≠ [] := by
        intro hnil
        rw [← hr.head?_ancestors, hnil] at hknown
        cases hknown
      obtain ⟨last, hlast⟩ := Option.isSome_iff_exists.mp (getLast?_isSome.mpr hne)
      rw [Option.map_some, Option.getD_some, getLast?_cons, hlast, Option.getD_some,
        Option.mem_some_iff] at hd
      exact ih c hget s hs d (hd ▸ hlast)

end Founded

/-! ## Owners of methods -/

/-- A class declares a method if a statement of its body defines it. -/
theorem declares_iff {method : String} :
    c.declares method ↔ ∃ f, Statement.function f ∈ c.body ∧ f.name = method := by
  have hfunction {s : Statement} {f : FunctionDef} : s.function? = some f ↔ s = .function f := by
    cases s <;> simp [Statement.function?]
  simp only [ClassDef.declares, ClassDef.methods, any_eq_true, mem_filterMap, beq_iff_eq, hfunction,
    exists_eq_right]

/-- The owner of a method is the first class of the chain that declares it. -/
theorem owner?_eq_some_iff {name method : String} :
    r.owner? name method = some c ↔ c.declares method ∧ ∃ nearer further,
      r.ancestors name = nearer ++ c :: further ∧ ∀ d ∈ nearer, d.declares method = false := by
  rw [owner?, find?_eq_some_iff_append]
  simp only [Bool.not_eq_true']

theorem owner?_eq_none_iff {name method : String} :
    r.owner? name method = none ↔ ∀ c ∈ r.ancestors name, c.declares method = false := by
  rw [owner?, find?_eq_none]
  simp only [Bool.not_eq_true]

end Offside.ClassRegistry
