import Offside.Class.Attributes
import Offside.Class.Body
import Offside.Class.Registry
import Offside.Proofs.Tree.Relocation

/-!
# Relocated classes

The attributes of a class, the check of its body and the registration of classes commute with
`relocate`: they look at no location, and errors carry the locations of the trees.
-/

namespace Offside

open List

variable (place : Location → Location)

/-! ## Definitions -/

theorem FunctionDef.name_relocate (f : FunctionDef) : (f.relocate place).name = f.name := by
  obtain ⟨name, parameters, returnHint, body, span⟩ := f
  rfl

theorem FunctionDef.parameters_relocate (f : FunctionDef) :
    (f.relocate place).parameters = f.parameters.map (Parameter.relocate place) := by
  obtain ⟨name, parameters, returnHint, body, span⟩ := f
  rfl

theorem FunctionDef.returnHint_relocate (f : FunctionDef) :
    (f.relocate place).returnHint = f.returnHint.map (TypeHint.relocate place) := by
  obtain ⟨name, parameters, returnHint, body, span⟩ := f
  rfl

theorem FunctionDef.body_relocate (f : FunctionDef) :
    (f.relocate place).body = f.body.map (Statement.relocate place) := by
  obtain ⟨name, parameters, returnHint, body, span⟩ := f
  exact Statement.relocateAll_eq_map place body

theorem FunctionDef.isInitializer_relocate (f : FunctionDef) :
    (f.relocate place).isInitializer = f.isInitializer := by
  rw [isInitializer, isInitializer, FunctionDef.name_relocate]

theorem FunctionDef.arity_relocate (f : FunctionDef) : (f.relocate place).arity = f.arity := by
  rw [arity, arity, FunctionDef.parameters_relocate, length_map]

theorem FunctionDef.receiver?_relocate (f : FunctionDef) :
    (f.relocate place).receiver? = f.receiver? := by
  obtain ⟨name, parameters, returnHint, body, span⟩ := f
  cases parameters <;> rfl

theorem Declaration.attributeOf?_relocate (d : Declaration) (receiver : String) :
    (d.relocate place).attributeOf? receiver = d.attributeOf? receiver := by
  obtain ⟨name, hint, accesses, span⟩ := d
  match accesses with
  | [] | [.member _ _] | [.call _] | [.subscript _] => rfl
  | first :: _ :: _ => cases first <;> rfl

theorem Statement.attributesOf_relocate (receiver : String) (s : Statement) :
    (s.relocate place).attributesOf receiver =
      (s.attributesOf receiver).map (Attribute.relocate place) := by
  match s with
  | .assign ⟨targets, .plain, value, span⟩ =>
    change (targets.map (Declaration.relocate place)).filterMap _ = (targets.filterMap _).map _
    rw [filterMap_map, map_filterMap]
    congr 1
    funext d
    rw [Function.comp_apply, Declaration.attributeOf?_relocate, Option.map_map]
    rfl
  | .assign ⟨_, .augmented _, _, _⟩ => rfl
  | .superCall _ | .returns .. | .pass | .breaks | .continues | .expressions _ | .function _
  | .classDef _ | .conditional _ | .forLoop .. | .whileLoop .. => rfl

theorem FunctionDef.declaredAttributes_relocate (f : FunctionDef) :
    (f.relocate place).declaredAttributes =
      f.declaredAttributes.map (Attribute.relocate place) := by
  unfold FunctionDef.declaredAttributes
  rw [FunctionDef.receiver?_relocate]
  cases f.receiver? with
  | none => rfl
  | some receiver =>
    dsimp only
    rw [FunctionDef.isInitializer_relocate, FunctionDef.body_relocate,
      apply_ite (map (Attribute.relocate place)), flatMap_map, map_flatMap]
    simp only [Statement.attributesOf_relocate]
    rfl

theorem Attribute.enter_relocate (attributes : List Attribute) (new : Attribute) :
    enter (attributes.map (relocate place)) (new.relocate place) =
      (enter attributes new).map (relocate place) := by
  induction attributes with
  | nil => rfl
  | cons old attributes ih =>
    have hor : (old.hint.map (TypeHint.relocate place)).or
      (new.hint.map (TypeHint.relocate place)) =
        (old.hint.or new.hint).map (TypeHint.relocate place) := by
      cases old.hint <;> rfl
    by_cases hname : old.name = new.name
    · simp [enter, relocate, hname, hor]
    · have hsame : ¬ (old.relocate place).name = (new.relocate place).name := hname
      rw [map_cons, enter, enter, if_neg hname, if_neg hsame, ih, map_cons]

theorem Statement.function?_relocate (s : Statement) :
    (s.relocate place).function? = s.function?.map (FunctionDef.relocate place) := by
  cases s <;> rfl

theorem filterMap_function?_relocate (body : List Statement) :
    (body.map (Statement.relocate place)).filterMap Statement.function? =
      (body.filterMap Statement.function?).map (FunctionDef.relocate place) := by
  rw [filterMap_map, map_filterMap]
  congr 1
  funext s
  exact s.function?_relocate place

/-- The attributes of a class body do not depend on locations. -/
theorem attributesOfBody_relocate (body : List Statement) :
    attributesOfBody (body.map (Statement.relocate place)) =
      (attributesOfBody body).map (Attribute.relocate place) := by
  have henter : ∀ (new old : List Attribute),
    (new.map (Attribute.relocate place)).foldl Attribute.enter
      (old.map (Attribute.relocate place)) =
        (new.foldl Attribute.enter old).map (Attribute.relocate place) := by
    intro new
    induction new with
    | nil => exact fun _ => rfl
    | cons a new ih =>
      intro old
      rw [map_cons, foldl_cons, foldl_cons, Attribute.enter_relocate, ih]
  unfold attributesOfBody
  rw [filterMap_function?_relocate, flatMap_map]
  simp only [FunctionDef.declaredAttributes_relocate]
  rw [← map_flatMap]
  exact henter _ []

theorem isDocstring_relocate (list : List Expression) :
    isDocstring (list.map (Expression.relocate place)) = isDocstring list := by
  match list with
  | [] => rfl
  | _ :: _ :: _ => simp [isDocstring]
  | [⟨.primary ⟨atom, [], _⟩, _⟩] => cases atom <;> rfl
  | [⟨.primary ⟨atom, _ :: _, _⟩, _⟩] => cases atom <;> rfl
  | [⟨.or .., _⟩] | [⟨.and .., _⟩] | [⟨.not _, _⟩] | [⟨.compare .., _⟩] | [⟨.sum .., _⟩]
  | [⟨.product .., _⟩] | [⟨.sign .., _⟩] | [⟨.power .., _⟩] => rfl

/-- The check of a class body looks at no location, and refuses a method where it stands. -/
theorem checkClassBody_relocate (className : String) (seen : List (String × Nat))
    (body : List Statement) :
    checkClassBody className seen (body.map (Statement.relocate place)) =
      (checkClassBody className seen body).mapError (SemanticError.relocate place) := by
  induction body generalizing seen with
  | nil => rfl
  | cons statement rest ih =>
    rw [map_cons]
    cases statement with
    | function method =>
      have hstart : (method.relocate place).span.start = place method.span.start := by
        cases method
        rfl
      rw [Statement.relocate, checkClassBody, checkClassBody, FunctionDef.name_relocate,
        FunctionDef.arity_relocate, hstart]
      split
      · rfl
      · exact ih _
    | pass => exact ih seen
    | expressions list =>
      rw [Statement.relocate, checkClassBody, checkClassBody, isDocstring_relocate]
      split
      · exact ih seen
      · rfl
    | _ => rfl

theorem ClassDef.name_relocate (c : ClassDef) : (c.relocate place).name = c.name := by
  cases c
  rfl

theorem ClassDef.superclass_relocate (c : ClassDef) :
    (c.relocate place).superclass = c.superclass := by
  cases c
  rfl

theorem ClassDef.attributes_relocate (c : ClassDef) :
    (c.relocate place).attributes = c.attributes.map (Attribute.relocate place) := by
  cases c
  rfl

theorem ClassDef.start_relocate (c : ClassDef) :
    (c.relocate place).span.start = place c.span.start := by
  cases c
  rfl

theorem ClassDef.methods_relocate (c : ClassDef) :
    (c.relocate place).methods = c.methods.map (FunctionDef.relocate place) := by
  obtain ⟨name, superclass, body, attributes, span⟩ := c
  change (Statement.relocateAll place body).filterMap _ = _
  rw [Statement.relocateAll_eq_map]
  exact filterMap_function?_relocate place body

theorem ClassDef.declares_relocate (c : ClassDef) (method : String) :
    (c.relocate place).declares method = c.declares method := by
  rw [declares, declares, methods_relocate, any_map]
  congr 1
  funext f
  rw [Function.comp_apply, FunctionDef.name_relocate]

/-! ## Registries -/

/-- The classes of a registry with other locations. -/
def ClassRegistry.relocate (r : ClassRegistry) : ClassRegistry :=
  ⟨r.latestFirst.map (ClassDef.relocate place)⟩

namespace ClassRegistry

variable (r : ClassRegistry)

theorem contains_relocate (name : String) : (r.relocate place).contains name = r.contains name := by
  rw [contains, contains, relocate, any_map]
  congr 1
  funext c
  rw [Function.comp_apply, ClassDef.name_relocate]

theorem get?_relocate (name : String) :
    (r.relocate place).get? name = (r.get? name).map (ClassDef.relocate place) := by
  rw [get?, get?, relocate, find?_map]
  congr 2
  funext c
  rw [Function.comp_apply, ClassDef.name_relocate]

theorem chain_relocate (latestFirst : List ClassDef) (name : String) :
    chain (latestFirst.map (ClassDef.relocate place)) name =
      (chain latestFirst name).map (ClassDef.relocate place) := by
  induction latestFirst generalizing name with
  | nil => rfl
  | cons c earlier ih =>
    rw [map_cons, chain, chain, ClassDef.name_relocate, ClassDef.superclass_relocate]
    split
    · cases c.superclass with
      | none => rfl
      | some superclass =>
        dsimp only
        rw [ih superclass, map_cons]
    · exact ih name

theorem owner?_relocate (name method : String) :
    (r.relocate place).owner? name method =
      (r.owner? name method).map (ClassDef.relocate place) := by
  rw [owner?, owner?, ancestors, ancestors, relocate, chain_relocate, find?_map]
  congr 2
  funext c
  rw [Function.comp_apply, ClassDef.declares_relocate]

theorem anyDeclares_relocate (method : String) :
    (r.relocate place).anyDeclares method = r.anyDeclares method := by
  rw [anyDeclares, anyDeclares, relocate, any_map]
  congr 1
  funext c
  rw [Function.comp_apply, ClassDef.declares_relocate]

theorem size_relocate : (r.relocate place).size = r.size := length_map _

theorem classes_relocate :
    (r.relocate place).classes = r.classes.map (ClassDef.relocate place) :=
  map_reverse.symm

/-- A class is registered or refused wherever it stands, and refused where it stands. -/
theorem register_relocate (c : ClassDef) :
    (r.relocate place).register (c.relocate place) =
      ((r.register c).map (relocate place)).mapError (SemanticError.relocate place) := by
  rw [register, register, contains_relocate, ClassDef.name_relocate, ClassDef.superclass_relocate,
    ClassDef.start_relocate]
  split
  · rfl
  · simp only [contains_relocate]
    cases c.superclass.filter (!r.contains ·) <;> rfl

end ClassRegistry

end Offside
