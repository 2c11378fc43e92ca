import Offside.Proofs.Emit.Relocation
import Offside.Proofs.Tree.Classes

/-!
# Emitted programs at other locations

Layouts, statements and programs have the same emitted form at other locations, as expressions do;
and if there is none the error is the same at another location (`code_program_relocate`).  What
becomes of the other errors matters only where the definition of a class can be met that has no
layout (`Reporting.Covers`).
-/

namespace Offside

open Target Emit List

variable (place : Location → Location) (v : Reporting)

/-! ## Types and layouts -/

theorem Target.TypeName.unsupported_relocate (hint : TypeHint) :
    unsupported (hint.relocate place) = (unsupported hint).relocate place := by
  have hstart : (hint.relocate place).span.start = place hint.span.start := by
    obtain ⟨name, arguments, span⟩ := hint
    rfl
  rw [unsupported, unsupported, TypeHint.text_relocate, hstart]
  rfl

theorem Target.TypeName.ofHint_relocate (registry : ClassRegistry) : ∀ hint : TypeHint,
    ofHint (registry.relocate v.place) (hint.relocate v.place) =
      (ofHint registry hint).mapError v.report
  | ⟨name, [], span⟩ => by
    have hrefuse := unsupported_relocate v.place ⟨name, [], span⟩
    simp only [TypeHint.relocate, TypeHint.relocateAll] at hrefuse
    simp only [TypeHint.relocate, TypeHint.relocateAll, ofHint,
      ClassRegistry.contains_relocate, hrefuse]
    split
    · rfl
    · split
      · rfl
      · exact v.error_eq (by rfl)
  | ⟨name, [element], span⟩ => by
    have hrefuse := unsupported_relocate v.place ⟨name, [element], span⟩
    simp only [TypeHint.relocate, TypeHint.relocateAll] at hrefuse
    simp only [TypeHint.relocate, TypeHint.relocateAll, ofHint,
      ofHint_relocate registry element, hrefuse]
    split
    · exact (mapError_map _ _).symm
    · exact v.error_eq (by rfl)
  | ⟨name, first :: second :: rest, span⟩ =>
    (congrArg Except.error
      (unsupported_relocate v.place ⟨name, first :: second :: rest, span⟩)).trans
      (v.error_eq (by rfl))

namespace Layout

theorem enterField_relocate (registry : ClassRegistry) (className : String) (fields : List Field)
    (a : Attribute) :
    enterField (registry.relocate v.place) className fields (a.relocate v.place) =
      (enterField registry className fields a).mapError v.report := by
  obtain ⟨name, hint⟩ := a
  unfold enterField Attribute.relocate
  dsimp only
  split
  · rfl
  · cases hint with
    | none => rfl
    | some hint =>
      dsimp only [Option.map_some]
      rw [TypeName.ofHint_relocate, mapError_bind]
      rfl

theorem ofClass_relocate (registry : ClassRegistry) (layouts : List Layout) (c : ClassDef) :
    ofClass (registry.relocate v.place) layouts (c.relocate v.place) =
      (ofClass registry layouts c).mapError v.report := by
  unfold ofClass
  rw [ClassDef.name_relocate, ClassDef.superclass_relocate, ClassDef.attributes_relocate,
    ClassRegistry.owner?_relocate, Option.isNone_map, mapError_bind]
  dsimp only
  rw [foldlM_map_eq_mapError (enterField_relocate v registry c.name)]
  rfl

theorem all_relocate (registry : ClassRegistry) :
    all (registry.relocate v.place) = (all registry).mapError v.report := by
  unfold all
  rw [ClassRegistry.classes_relocate]
  refine foldlM_map_eq_mapError (fun layouts c => ?_) registry.classes []
  rw [ofClass_relocate, mapError_bind]
  rfl

end Layout

namespace Emit

/-! ## Assignments -/

variable (scope : Scope)

theorem targetCode_relocate (d : Declaration) :
    targetCode (scope.relocate v.place) (d.relocate v.place) =
      (targetCode scope d).mapError v.report := by
  have haccesses := accesses_relocate v scope (.ofName scope d.name d.span.start) d.accesses
  rw [← Root.ofName_relocate, Trailer.relocateAll_eq_map] at haccesses
  exact haccesses

theorem targetType_relocate (targets : List Declaration) :
    targetType (scope.relocate v.place) (targets.map (Declaration.relocate v.place)) =
      (targetType scope targets).mapError v.report := by
  rcases targets with _ | ⟨⟨name, _ | hint, _ | ⟨_, _⟩, span⟩, _ | ⟨_, _⟩⟩
  case cons.some.nil.nil =>
    have hhint : TypeName.ofHint (scope.relocate v.place).registry (hint.relocate v.place) = _ :=
      TypeName.ofHint_relocate v scope.registry hint
    simp only [map_cons, map_nil, Declaration.relocate, Option.map_some, targetType, hhint,
      mapError_bind, mapError_pure]
  all_goals rfl

theorem augmentedOperator?_relocate (value : List Expression) (op : AugmentedOp) :
    augmentedOperator? (value.map (Expression.relocate place)) op =
      augmentedOperator? value op := by
  cases op with
  | add =>
    rcases value with _ | ⟨single, _ | ⟨_, _⟩⟩
    · rfl
    · change some (sumOperator (single.relocate place).tree.isStringLiteral .add) = _
      rw [Expression.tree_relocate, Expr.isStringLiteral_relocate]
      rfl
    · rfl
  | _ => rfl

theorem augmentedValue_relocate (values : List Expression) :
    augmentedValue (scope.relocate v.place) (values.map (Expression.relocate v.place)) =
      (augmentedValue scope values).mapError v.report := by
  have hvalues := expressions_relocate v scope values
  rw [Expression.relocateAll_eq_map] at hvalues
  rcases values with _ | ⟨value, _ | ⟨_, _⟩⟩
  · rfl
  · have hsimple : isSimpleValue (value.relocate v.place) = isSimpleValue value := by
      rw [isSimpleValue, isSimpleValue, Expression.tree_relocate, Expr.primary?_relocate,
        Expr.integer?_relocate, Option.isSome_map]
    simp only [map_cons, map_nil, augmentedValue, expression_relocate v scope value, hsimple,
      mapError_bind, mapError_pure]
  · simp only [map_cons] at hvalues
    simp only [map_cons, augmentedValue, hvalues, mapError_bind, mapError_pure]

theorem assignmentParts_relocate (a : Assignment) :
    assignmentParts (scope.relocate v.place) (a.relocate v.place) =
      (assignmentParts scope a).mapError v.report := by
  obtain ⟨targets, op, value, span⟩ := a
  have hvalue := expressions_relocate v scope value
  rw [Expression.relocateAll_eq_map] at hvalue
  unfold assignmentParts Assignment.relocate
  dsimp only
  rw [mapM_map_eq_mapError (targetCode_relocate v scope), mapError_bind]
  congr 1
  funext codes
  cases op with
  | plain => simp only [targetType_relocate, hvalue, mapError_bind, mapError_pure]
  | augmented op =>
    dsimp only
    rw [augmentedOperator?_relocate]
    cases augmentedOperator? value op with
    | none => exact v.error_eq (by rfl)
    | some operator => simp only [augmentedValue_relocate, mapError_bind, mapError_pure]

theorem plainTargets_relocate (a : Assignment) :
    plainTargets (a.relocate place) = plainTargets a := by
  obtain ⟨targets, op, value, span⟩ := a
  have hplain (d : Declaration) : (d.relocate place).accesses.isEmpty = d.accesses.isEmpty :=
    isEmpty_map
  simp only [plainTargets, Assignment.relocate, filter_map, map_map, Function.comp_def, hplain]
  rfl

/-! ## Steps of the emission -/

/-- What comes of a step at other locations, by what comes of it else. -/
def relocateOutcome {α : Type} :
    EStateM.Result SemanticError Progress α → EStateM.Result SemanticError Progress α
  | .ok a p => .ok a p
  | .error e p => .error (v.report e) p

/-- The step `y`, at other locations, does what the step `x` does. -/
def Carries {α : Type} (x y : Emission α) : Prop := ∀ p : Progress, y p = relocateOutcome v (x p)

section Combining

variable {v} {α β : Type}

theorem carries_pure (a : α) : Carries v (pure a) (pure a) := fun _ => rfl

theorem Carries.bind {x y : Emission α} {k k' : α → Emission β} (hx : Carries v x y)
    (hk : ∀ a, Carries v (k a) (k' a)) : Carries v (x >>= k) (y >>= k') := by
  intro p
  change EStateM.bind y k' p = relocateOutcome v (EStateM.bind x k p)
  unfold EStateM.bind
  rw [hx p]
  cases x p with
  | ok a p' => exact hk a p'
  | error e p' => rfl

/-- A step that remembers nothing. -/
theorem carries_lift {x y : Except SemanticError α} (h : y = x.mapError v.report) :
    Carries v (liftM x) (liftM y) := by
  intro p
  rw [h]
  cases x <;> rfl

/-- A step behind one that remembers nothing, whose result it may depend on. -/
theorem carries_lift_bind {x y : Except SemanticError α} {k k' : α → Emission β}
    (h : y = x.mapError v.report) (hk : ∀ a, x = .ok a → Carries v (k a) (k' a)) :
    Carries v ((liftM x : Emission α) >>= k) ((liftM y : Emission α) >>= k') := by
  rw [h]
  cases x with
  | ok a => exact hk a rfl
  | error e => exact fun _ => rfl

theorem carries_mapM {γ : Type} {g : γ → γ} {k k' : γ → Emission α}
    (h : ∀ x, Carries v (k x) (k' (g x))) (xs : List γ) :
    Carries v (xs.mapM k) ((xs.map g).mapM k') := by
  induction xs with
  | nil => exact carries_pure []
  | cons x xs ih =>
    rw [map_cons, mapM_cons, mapM_cons]
    exact (h x).bind fun _ => ih.bind fun _ => carries_pure _

end Combining

theorem carries_globalTargets (a : Assignment) :
    Carries v (globalTargets scope a)
      (globalTargets (scope.relocate v.place) (a.relocate v.place)) := by
  change Carries v _ (if scope.inFunction then _ else if scope.inLoop then _ else _)
  rw [plainTargets_relocate]
  unfold globalTargets
  split
  · exact fun _ => rfl
  · split
    · exact fun _ => rfl
    · exact fun _ => rfl

theorem carries_assignment (a : Assignment) :
    Carries v (assignment scope a) (assignment (scope.relocate v.place) (a.relocate v.place)) := by
  have hlength : (a.relocate v.place).targets.length = a.targets.length := length_map _
  unfold assignment
  rw [hlength]
  refine (carries_lift (assignmentParts_relocate v scope a)).bind fun parts =>
    (carries_globalTargets v scope a).bind fun declared => ?_
  split
  · exact carries_pure _
  · split
    · exact carries_pure _
    · exact carries_pure _

/-! ## Functions -/

theorem hintType_relocate (hint : Option TypeHint) :
    hintType (scope.relocate v.place) (hint.map (TypeHint.relocate v.place)) =
      (hintType scope hint).mapError v.report := by
  cases hint with
  | none => rfl
  | some hint =>
    have hhint : TypeName.ofHint (scope.relocate v.place).registry (hint.relocate v.place) = _ :=
      TypeName.ofHint_relocate v scope.registry hint
    simp only [Option.map_some, hintType, hhint, mapError_bind, mapError_pure]

theorem defaultCode_relocate (value : Option Expression) :
    defaultCode (scope.relocate v.place) (value.map (Expression.relocate v.place)) =
      (defaultCode scope value).mapError v.report := by
  cases value with
  | none => rfl
  | some value =>
    simp only [Option.map_some, defaultCode, expression_relocate v scope value, mapError_bind,
      mapError_pure]

theorem formal_relocate (p : Parameter) : formal (scope.relocate v.place) (p.relocate v.place) =
    (formal scope p).mapError v.report := by
  simp only [formal, Parameter.relocate, hintType_relocate, defaultCode_relocate, mapError_bind,
    mapError_pure]

theorem methodFormals_relocate (marker : TypeName) (parameters : List Parameter) :
    methodFormals (scope.relocate v.place) marker (parameters.map (Parameter.relocate v.place)) =
      (methodFormals scope marker parameters).mapError v.report := by
  cases parameters with
  | nil => rfl
  | cons receiver rest =>
    have hrest := mapM_map_eq_mapError (formal_relocate v scope) rest
    simp only [map_cons, methodFormals, Parameter.relocate, defaultCode_relocate, mapError_bind,
      mapError_pure, hrest]

theorem methodHead_relocate (l : Layout) (f : FunctionDef) :
    methodHead (scope.relocate v.place) l (f.relocate v.place) =
      (methodHead scope l f).mapError v.report := by
  unfold methodHead
  rw [FunctionDef.parameters_relocate, methodFormals_relocate, mapError_bind,
    FunctionDef.isInitializer_relocate, FunctionDef.returnHint_relocate, FunctionDef.name_relocate,
    hintType_relocate]
  congr 1
  funext formals
  dsimp only
  split
  · rfl
  · simp only [mapError_bind, mapError_pure]

theorem endsWithReturn_relocate (body : List Statement) :
    endsWithReturn (body.map (Statement.relocate place)) = endsWithReturn body := by
  unfold endsWithReturn
  rw [getLast?_map]
  cases body.getLast? with
  | none => rfl
  | some s => cases s <;> rfl

theorem finalReturn_relocate (f : FunctionDef) :
    finalReturn (f.relocate place) = finalReturn f := by
  rw [finalReturn, finalReturn, FunctionDef.receiver?_relocate, FunctionDef.isInitializer_relocate,
    FunctionDef.body_relocate, endsWithReturn_relocate]

theorem dispatchItems_relocate (l : Layout) (f : FunctionDef) (name : String)
    (formals : List Formal) :
    dispatchItems l (f.relocate place) name formals = dispatchItems l f name formals := by
  rw [dispatchItems, dispatchItems, FunctionDef.parameters_relocate, isEmpty_map, map_map]
  rfl

theorem returnValues_relocate (value : Option (List Expression)) :
    returnValues (scope.relocate v.place) (value.map (map (Expression.relocate v.place))) =
      (returnValues scope value).mapError v.report := by
  cases value with
  | some values =>
    have hvalues := expressions_relocate v scope values
    rwa [Expression.relocateAll_eq_map] at hvalues
  | none =>
    have hreceiver : (scope.relocate v.place).receiver = scope.receiver := rfl
    rw [Option.map_none, returnValues, returnValues, hreceiver]
    cases scope.receiver with
    | none => rfl
    | some receiver => rfl

theorem iterableCode_relocate (values : List Expression) :
    iterableCode (scope.relocate v.place) (values.map (Expression.relocate v.place)) =
      (iterableCode scope values).mapError v.report := by
  have hvalues := expressions_relocate v scope values
  rw [Expression.relocateAll_eq_map] at hvalues
  rcases values with _ | ⟨value, _ | ⟨_, _⟩⟩
  · rfl
  · exact expression_relocate v scope value
  · simp only [map_cons] at hvalues
    simp only [map_cons, iterableCode, hvalues, mapError_bind, mapError_pure]

/-! ## Classes -/

/-- All errors are the same where they stand. -/
def Reporting.IsFaithful (v : Reporting) : Prop := ∀ e, v.report e = e.relocate v.place

/-- A class is entered alike if it has a layout, or else if its error is the same. -/
theorem carries_enterClass {c : ClassDef} (h : v.IsFaithful ∨ (scope.layout? c.name).isSome) :
    Carries v (enterClass scope c) (enterClass (scope.relocate v.place) (c.relocate v.place)) := by
  have hlayout : (scope.relocate v.place).layout? c.name = scope.layout? c.name := rfl
  intro p
  unfold enterClass
  rw [ClassDef.name_relocate, ClassDef.methods_relocate, length_map,
    ClassDef.start_relocate, hlayout]
  cases hfound : scope.layout? c.name with
  | none =>
    rw [hfound] at h
    have hreport := h.resolve_right (by decide)
    change EStateM.Result.error _ _ = EStateM.Result.error (v.report _) _
    rw [hreport]
    rfl
  | some layout => rfl

/-! ## Statements -/

theorem Scope.relocate_ofMethod (className : String) (f : FunctionDef) :
    (scope.relocate place).ofMethod className (f.relocate place) =
      (scope.ofMethod className f).relocate place := by
  rw [ofMethod, ofMethod, FunctionDef.receiver?_relocate, FunctionDef.isInitializer_relocate]
  rfl

theorem Scope.relocate_ofLoop (target : Option String) :
    (scope.relocate place).ofLoop target = (scope.ofLoop target).relocate place := by
  change (if scope.inFunction then _ else _) = _
  unfold ofLoop
  split <;> rfl

/-- What is asked of both parts. -/
theorem both_of_and {P : Prop} {a b : Bool} (h : P ∨ (a && b)) : (P ∨ a) ∧ (P ∨ b) := by
  rwa [Bool.and_eq_true_iff, or_and_left] at h

mutual

/-- A statement at other places has the same code. -/
theorem carries_statement (scope : Scope) : ∀ s : Statement, v.IsFaithful ∨ s.isClassFree →
    Carries v (statement scope s) (statement (scope.relocate v.place) (s.relocate v.place))
  | .assign a, _ => carries_assignment v scope a
  | .superCall call, _ =>
    (carries_lift (superCall_relocate v scope call)).bind fun _ => carries_pure _
  | .returns value _, _ =>
    (carries_lift (returnValues_relocate v scope value)).bind fun _ => carries_pure _
  | .pass, _ | .breaks, _ | .continues, _ => carries_pure _
  | .expressions list, _ => by
    have hlist := expressions_relocate v scope list
    rw [Expression.relocateAll_eq_map] at hlist
    exact (carries_lift hlist).bind fun _ => carries_pure _
  | .function ⟨name, parameters, returnHint, body, _⟩, h => by
    have hformal (p : Parameter) : Carries v (formal scope p : Emission Formal)
        (formal (scope.relocate v.place) (p.relocate v.place) : Emission Formal) :=
      carries_lift (formal_relocate v scope p)
    exact (carries_mapM hformal parameters).bind fun _ =>
      (carries_lift (hintType_relocate v scope returnHint)).bind fun _ =>
        (carries_block scope.ofFunction body h).bind fun _ => carries_pure _
  | .classDef ⟨name, superclass, body, attributes, span⟩, h =>
    have hfaithful := h.resolve_right Bool.false_ne_true
    (carries_enterClass v scope (.inl hfaithful)).bind fun layout =>
      (carries_methods scope layout body (.inl hfaithful)).bind fun _ => carries_pure _
  | .conditional ⟨condition, body, otherwise, _⟩, h =>
    (carries_lift (expression_relocate v scope condition)).bind fun _ =>
      (carries_block scope body (both_of_and h).1).bind fun _ =>
        (carries_alternative scope otherwise (both_of_and h).2).bind fun _ => carries_pure _
  | .forLoop target iterable body _, h => by
    have hbody := carries_block (scope.ofLoop (some target)) body h
    rw [← Scope.relocate_ofLoop] at hbody
    exact (carries_lift (iterableCode_relocate v scope iterable)).bind fun _ =>
      hbody.bind fun _ => carries_pure _
  | .whileLoop condition body _, h => by
    have hbody := carries_block (scope.ofLoop none) body h
    rw [← Scope.relocate_ofLoop] at hbody
    exact (carries_lift (expression_relocate v scope condition)).bind fun _ =>
      hbody.bind fun _ => carries_pure _

theorem carries_block (scope : Scope) : ∀ body : List Statement,
    v.IsFaithful ∨ Statement.areClassFree body →
    Carries v (block scope body)
      (block (scope.relocate v.place) (Statement.relocateAll v.place body))
  | [], _ => carries_pure _
  | first :: rest, h =>
    (carries_statement scope first (both_of_and h).1).bind fun _ =>
      (carries_block scope rest (both_of_and h).2).bind fun _ => carries_pure _

theorem carries_alternative (scope : Scope) : ∀ otherwise : Otherwise,
    v.IsFaithful ∨ otherwise.isClassFree →
    Carries v (alternative scope otherwise)
      (alternative (scope.relocate v.place) (otherwise.relocate v.place))
  | .nothing, _ => carries_pure _
  | .elseIf ⟨condition, body, otherwise, _⟩, h =>
    (carries_lift (expression_relocate v scope condition)).bind fun _ =>
      (carries_block scope body (both_of_and h).1).bind fun _ =>
        (carries_alternative scope otherwise (both_of_and h).2).bind fun _ => carries_pure _
  | .block body, h => (carries_block scope body h).bind fun _ => carries_pure _

theorem carries_methods (scope : Scope) (l : Layout) : ∀ body : List Statement,
    v.IsFaithful ∨ Statement.areClassFree body →
    Carries v (methods scope l body)
      (methods (scope.relocate v.place) l (Statement.relocateAll v.place body))
  | [], _ => carries_pure _
  | .function ⟨name, parameters, returnHint, body, span⟩ :: rest, h => by
    have hbody :=
      carries_block (scope.ofMethod l.className ⟨name, parameters, returnHint, body, span⟩) body
      (both_of_and h).1
    rw [← Scope.relocate_ofMethod] at hbody
    have hhead := methodHead_relocate v scope l ⟨name, parameters, returnHint, body, span⟩
    have hrest := carries_methods scope l rest (both_of_and h).2
    have hreturn := finalReturn_relocate v.place ⟨name, parameters, returnHint, body, span⟩
    have hdispatch := dispatchItems_relocate v.place l ⟨name, parameters, returnHint, body, span⟩
    rw [Statement.relocateAll, Statement.relocate]
    simp only [FunctionDef.relocate] at hbody hhead hreturn hdispatch ⊢
    simp only [methods, hreturn, hdispatch]
    exact (carries_lift hhead).bind fun _ => hbody.bind fun _ => hrest.bind fun _ => carries_pure _
  | .assign _ :: rest, h | .superCall _ :: rest, h | .returns .. :: rest, h | .pass :: rest, h
  | .breaks :: rest, h | .continues :: rest, h | .expressions _ :: rest, h | .classDef _ :: rest, h
  | .conditional _ :: rest, h | .forLoop .. :: rest, h | .whileLoop .. :: rest, h =>
    carries_methods scope l rest (both_of_and h).2

end

/-! ## Programs -/

/-- The errors of a statement are the same where they stand: all errors are, or the statement stands
outside all blocks and the class that it defines has a layout. -/
def Reporting.Covers (v : Reporting) (scope : Scope) (s : Statement) : Prop :=
  v.IsFaithful ∨ s.IsOuter ∧ ∀ c, s = .classDef c → (scope.layout? c.name).isSome = true

theorem carries_covered {s : Statement} (h : v.Covers scope s) :
    Carries v (statement scope s) (statement (scope.relocate v.place) (s.relocate v.place)) := by
  rcases h with hfaithful | ⟨houter, hlayout⟩
  · exact carries_statement v scope s (.inl hfaithful)
  · cases houter with
    | classFree hfree => exact carries_statement v scope s (.inr hfree)
    | @classDef c hfree =>
      have hlayout := hlayout c rfl
      obtain ⟨name, superclass, body, attributes, span⟩ := c
      exact (carries_enterClass v scope (.inr hlayout)).bind fun layout =>
        (carries_methods v scope layout body (.inr hfree)).bind fun _ => carries_pure _

theorem carries_statements {source : Program} (h : ∀ s ∈ source, v.Covers scope s) :
    Carries v (statements scope source)
      (statements (scope.relocate v.place) (source.map (Statement.relocate v.place))) := by
  induction source with
  | nil => exact carries_pure _
  | cons first rest ih =>
    obtain ⟨hfirst, hrest⟩ := forall_mem_cons.mp h
    have hdefinition : (first.relocate v.place).isDefinition = first.isDefinition := by
      cases first <;> rfl
    rw [map_cons, statements, statements, hdefinition, isEmpty_map]
    exact (carries_covered v scope hfirst).bind fun _ => (ih hrest).bind fun _ => carries_pure _

theorem shadowedItems_relocate (registry : ClassRegistry) :
    shadowedItems (registry.relocate place) = shadowedItems registry := by
  simp only [shadowedItems, shadowedMethods, ClassRegistry.anyDeclares_relocate]

theorem carries_programItems {registry : ClassRegistry} {source : Program}
    (h : ∀ layouts, Layout.all registry = .ok layouts →
      ∀ s ∈ source, v.Covers { registry, layouts } s) :
    Carries v (programItems registry source)
      (programItems (registry.relocate v.place) (source.map (Statement.relocate v.place))) := by
  unfold programItems
  rw [shadowedItems_relocate]
  exact carries_lift_bind (Layout.all_relocate v registry) fun layouts hlayouts =>
    (carries_statements v { registry, layouts } (h layouts hlayouts)).bind fun _ => carries_pure _

theorem carries_programItems_faithful (registry : ClassRegistry) (source : Program) :
    Carries (.faithful place) (programItems registry source)
      (programItems (registry.relocate place) (source.map (Statement.relocate place))) :=
  carries_programItems (.faithful place) fun _ _ _ _ => .inl fun _ => rfl

/-- A program at other locations has the same code and is reported in the same way; and if it has no
code, the error is the same at another location. -/
theorem code_program_relocate (registry : ClassRegistry) (source : Program) :
    (program (registry.relocate place) (source.map (Statement.relocate place))).code =
      (program registry source).code.mapError (SemanticError.relocate place) := by
  rw [program, program, carries_programItems_faithful place registry source {}]
  cases programItems registry source {} with
  | ok items p => rfl
  | error e p => rfl

end Emit

end Offside
