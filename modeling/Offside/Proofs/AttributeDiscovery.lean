import Mathlib.Data.List.Basic
import Mathlib.Data.List.Induction
import Offside.Class.Attributes

/-!
# Discovery of attributes

A class has the attributes that are targets of plain assignments at the top level of its
initializers.  The targets are listed in the order of the text, and entered one by one.  What the
entered ones say about the attributes (`Discovers`) is kept by each further one (`Discovers.enter`).
-/

namespace Offside

open List

/-! ## Targets in initializers -/

/-- The targets of a plain assignment. -/
def Statement.plainTargets : Statement → List Declaration
  | .assign ⟨targets, .plain, _, _⟩ => targets
  | _ => []

/-- The targets of the plain assignments at the top level of an initializer, with its receiver. -/
def Statement.initializerTargets : Statement → List (String × Declaration)
  | .function f =>
    if f.isInitializer then
      f.receiver?.toList.flatMap fun receiver =>
        (f.body.flatMap Statement.plainTargets).map (receiver, ·)
    else []
  | _ => []

/-- Whether a target is exactly the attribute of the receiver: one access to it and nothing more. -/
def declaresAttribute (name : String) : String × Declaration → Bool
  | (receiver, ⟨base, _, [.member member _], _⟩) => base == receiver && member == name
  | _ => false

/-- The attributes that the targets declare.  No name is listed twice, the names are listed in the
order of their first targets, and an attribute has the type of the first of its targets with one. -/
structure Discovers (targets : List (String × Declaration))
    (attributes : List Attribute) : Prop where
  nodup : (attributes.map Attribute.name).Nodup
  mem_names_iff : ∀ name, name ∈ attributes.map Attribute.name ↔
    ∃ target ∈ targets, declaresAttribute name target
  inOrder : (attributes.map Attribute.name).Pairwise fun name later =>
    targets.findIdx (declaresAttribute name) < targets.findIdx (declaresAttribute later)
  hint_eq : ∀ a ∈ attributes, a.hint = targets.findSome? fun target =>
    if declaresAttribute a.name target then target.2.hint else none

/-- The attribute that a target declares. -/
def declaredAttribute? (target : String × Declaration) : Option Attribute :=
  (target.2.attributeOf? target.1).map fun name => ⟨name, target.2.hint⟩

theorem declaresAttribute_iff {target : String × Declaration} {name : String} :
    declaresAttribute name target ↔ declaredAttribute? target = some ⟨name, target.2.hint⟩ := by
  obtain ⟨receiver, base, hint, accesses, span⟩ := target
  rcases accesses with _ |
    ⟨_ | _ | _, _ | _⟩ <;> simp [declaresAttribute, declaredAttribute?, Declaration.attributeOf?]

/-! ## Entering targets -/

section Enter

variable {attributes : List Attribute} {new : Attribute}

theorem Attribute.map_name_enter (attributes : List Attribute) (new : Attribute) :
    (Attribute.enter attributes new).map Attribute.name =
      if new.name ∈ attributes.map Attribute.name then attributes.map Attribute.name
      else attributes.map Attribute.name ++ [new.name] := by
  fun_induction Attribute.enter attributes new with
  | case1 new => rfl
  | case2 old rest new hname => simp [hname]
  | case3 old rest new hname ih =>
    simp only [map_cons, ih, mem_cons, Ne.symm hname, false_or]
    split <;> rfl

/-- Only the attribute with the name of the new one is changed: its type, or its lack of one, is
followed by that of the new one. -/
theorem Attribute.mem_enter (hnodup : (attributes.map Attribute.name).Nodup) {a : Attribute}
    (h : a ∈ Attribute.enter attributes new) : (a ∈ attributes ∧ a.name ≠ new.name) ∨
      ∃ hint, a = ⟨new.name, hint.or new.hint⟩ ∧
        (⟨new.name, hint⟩ ∈ attributes ∨ hint = none ∧
          new.name ∉ attributes.map Attribute.name) := by
  fun_induction Attribute.enter attributes new with
  | case1 new => exact .inr ⟨none, mem_singleton.mp h, .inr ⟨rfl, not_mem_nil⟩⟩
  | case2 old rest new hname =>
    rcases mem_cons.mp h with rfl | hmem
    · exact .inr ⟨old.hint, by rw [hname], .inl (hname ▸ mem_cons_self)⟩
    · have hother : a.name ≠ old.name :=
        fun heq => (nodup_cons.mp hnodup).1 (heq ▸ mem_map_of_mem hmem)
      exact .inl ⟨mem_cons_of_mem _ hmem, hname ▸ hother⟩
  | case3 old rest new hname ih =>
    rcases mem_cons.mp h with rfl | hmem
    · exact .inl ⟨mem_cons_self, hname⟩
    · refine (ih (nodup_cons.mp hnodup).2 hmem).imp (And.imp_left (mem_cons_of_mem _)) ?_
      rintro ⟨hint, rfl, hold⟩
      exact ⟨hint, rfl, hold.imp (mem_cons_of_mem _)
        (And.imp_right fun hnew => by simpa [Ne.symm hname] using hnew)⟩

variable {targets : List (String × Declaration)} {target : String × Declaration}

/-- A further target does not change where a name that is listed stands first. -/
theorem Discovers.findIdx_append (h : Discovers targets attributes) {name : String}
    (hname : name ∈ attributes.map Attribute.name) (target : String × Declaration) :
    targets.findIdx (declaresAttribute name) < targets.length ∧
      (targets ++ [target]).findIdx (declaresAttribute name) =
        targets.findIdx (declaresAttribute name) := by
  have hlt := findIdx_lt_length.mpr ((h.mem_names_iff name).mp hname)
  exact ⟨hlt, by rw [List.findIdx_append, if_pos hlt]⟩

/-- A target that declares nothing. -/
theorem Discovers.skip (h : Discovers targets attributes)
    (htarget : declaredAttribute? target = none) :
    Discovers (targets ++ [target]) attributes := by
  have hnone (name : String) : declaresAttribute name target = false :=
    Bool.eq_false_iff.mpr fun hdeclares => by simp [declaresAttribute_iff.mp hdeclares] at htarget
  refine ⟨h.nodup, fun name => ?_, ?_, fun a ha => ?_⟩
  · simp [h.mem_names_iff, or_and_right, exists_or, hnone]
  · refine h.inOrder.imp_of_mem fun hname hlater hlt => ?_
    rwa [(h.findIdx_append hname _).2, (h.findIdx_append hlater _).2]
  · simp [h.hint_eq a ha, findSome?_append, hnone]

/-- A target that declares an attribute. -/
theorem Discovers.enter (h : Discovers targets attributes)
    (htarget : declaredAttribute? target = some new) :
    Discovers (targets ++ [target]) (Attribute.enter attributes new) := by
  have hnew (name : String) : declaresAttribute name target = decide (name = new.name) := by
    obtain ⟨found, -, rfl⟩ := Option.map_eq_some_iff.mp htarget
    rw [Bool.eq_iff_iff, declaresAttribute_iff, htarget]
    simp [eq_comm]
  have hhint : target.2.hint = new.hint := by
    obtain ⟨found, -, rfl⟩ := Option.map_eq_some_iff.mp htarget
    rfl
  have hmem (name : String) : (∃ t ∈ targets ++ [target], declaresAttribute name t) ↔
      name ∈ attributes.map Attribute.name ∨ name = new.name := by
    simp [h.mem_names_iff, or_and_right, exists_or, hnew]
  have hinOrder := h.inOrder.imp_of_mem (S := fun name later =>
      (targets ++ [target]).findIdx (declaresAttribute name) <
        (targets ++ [target]).findIdx (declaresAttribute later))
    fun hname hlater hlt => by rwa [(h.findIdx_append hname _).2, (h.findIdx_append hlater _).2]
  have hhints : ∀ a ∈ Attribute.enter attributes new, a.hint =
    (targets ++ [target]).findSome? fun t =>
      if declaresAttribute a.name t then t.2.hint else none := by
    intro a ha
    rcases Attribute.mem_enter h.nodup ha with ⟨ha, hother⟩ | ⟨hint, rfl, hold | ⟨rfl, hfirst⟩⟩
    · simp [h.hint_eq a ha, findSome?_append, hnew, hother]
    · have hold : hint = _ := h.hint_eq _ hold
      simp [findSome?_append, hnew, hhint, ← hold]
    · have hnone : targets.findSome? (fun t =>
          if declaresAttribute new.name t then t.2.hint else none) = none := by
        refine findSome?_eq_none_iff.mpr fun t ht => if_neg fun hdeclares => hfirst ?_
        exact (h.mem_names_iff _).mpr ⟨t, ht, hdeclares⟩
      simp [findSome?_append, hnew, hhint, hnone]
  by_cases hknown : new.name ∈ attributes.map Attribute.name
  · have hsame := (Attribute.map_name_enter attributes new).trans (if_pos hknown)
    refine ⟨hsame ▸ h.nodup, fun name => ?_, hsame ▸ hinOrder, hhints⟩
    rw [hsame, hmem]
    exact ⟨.inl, fun hname => hname.elim id fun heq => heq ▸ hknown⟩
  · have hmore := (Attribute.map_name_enter attributes new).trans (if_neg hknown)
    refine ⟨?_, fun name => by rw [hmore, hmem, mem_append, mem_singleton], ?_, hhints⟩
    · rw [hmore]
      exact nodup_append.mpr ⟨h.nodup, pairwise_singleton _ _, fun name hname last hlast =>
        mem_singleton.mp hlast ▸ fun heq => hknown (heq ▸ hname)⟩
    · rw [hmore]
      refine pairwise_append.mpr ⟨hinOrder, pairwise_singleton _ _, fun name hname last hlast => ?_⟩
      obtain rfl := mem_singleton.mp hlast
      -- the target is the first one of its name
      have hfirst : ¬targets.findIdx (declaresAttribute new.name) < targets.length := fun hlt =>
        hknown ((h.mem_names_iff _).mpr (findIdx_lt_length.mp hlt))
      obtain ⟨hlt, heq⟩ := h.findIdx_append hname target
      rw [heq, List.findIdx_append, if_neg hfirst]
      omega

end Enter

theorem discovers_foldl (targets : List (String × Declaration)) :
    Discovers targets ((targets.filterMap declaredAttribute?).foldl Attribute.enter []) := by
  induction targets using reverseRecOn with
  | nil => exact ⟨nodup_nil, by simp, Pairwise.nil, by simp⟩
  | append_singleton targets target ih =>
    rw [filterMap_append, foldl_append]
    cases htarget : declaredAttribute? target with
    | none =>
      rw [filterMap_cons_none htarget]
      exact ih.skip htarget
    | some new =>
      rw [filterMap_cons_some htarget]
      exact ih.enter htarget

/-! ## Class bodies -/

theorem Statement.attributesOf_eq_filterMap (receiver : String) (s : Statement) :
    s.attributesOf receiver = (s.plainTargets.map (receiver, ·)).filterMap declaredAttribute? := by
  cases s with
  | assign a =>
    obtain ⟨targets, op, value, span⟩ := a
    cases op with
    | plain =>
      rw [Statement.plainTargets, filterMap_map]
      rfl
    | augmented op => rfl
  | _ => rfl

theorem FunctionDef.declaredAttributes_eq_filterMap (f : FunctionDef) :
    f.declaredAttributes = (Statement.function f).initializerTargets.filterMap
      declaredAttribute? := by
  rw [FunctionDef.declaredAttributes, Statement.initializerTargets]
  cases f.receiver? with
  | none => cases f.isInitializer <;> rfl
  | some receiver =>
    cases f.isInitializer with
    | false => rfl
    | true => simp [Statement.attributesOf_eq_filterMap, filterMap_flatMap, map_flatMap]

/-- The attributes of a class are exactly those that its initializers declare.  They are listed in
the order of their first declarations, each with the first type it is declared with. -/
theorem discovers_attributesOfBody (body : List Statement) :
    Discovers (body.flatMap Statement.initializerTargets) (attributesOfBody body) := by
  have hdeclared : (body.filterMap Statement.function?).flatMap FunctionDef.declaredAttributes =
      (body.flatMap Statement.initializerTargets).filterMap declaredAttribute? := by
    induction body with
    | nil => rfl
    | cons s body ih =>
      rw [flatMap_cons, filterMap_append, ← ih]
      cases s with
      | function f =>
        rw [← FunctionDef.declaredAttributes_eq_filterMap,
          filterMap_cons_some (by rfl), flatMap_cons]
      | _ => rfl
  rw [attributesOfBody, hdeclared]
  exact discovers_foldl _

end Offside
