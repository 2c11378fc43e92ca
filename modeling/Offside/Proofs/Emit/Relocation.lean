import Offside.Emit.Program
import Offside.Proofs.Class.Relocation
import Offside.Proofs.Outcome

/-!
# Emitted expressions at other locations

The emission looks at no location; it only copies locations into its errors.  So the emitted form of
an expression at other locations is the same, and where there is none the error is the same at
another location.  It looks at no error either.  So this holds whatever becomes of the errors that
no expression has (`Reporting`).
-/

namespace Offside

open List

/-- Whether the emission can refuse a program that was read for this cause. -/
def SemanticCause.isOfEmission : SemanticCause → Bool
  | unknownSuperclass _ _ | superWithoutSuperclass _ | superOutsideMethod | unsupportedTypeHint _
  | unsupportedArity _ _ _ | unknownMethod _ _ | unsupportedAugmentedOperator _
  | unsupportedClassAttribute _ _ => true
  | duplicateClass _ | duplicateMethod _ _ _ | unsupportedClassStatement _ | nestedClass _ => false

namespace Emit

open Target

/-- Where something stands in a second emission, and what becomes of the errors of the first there:
those for causes of the emission are the same where they stand. -/
structure Reporting where
  place : Location → Location
  report : SemanticError → SemanticError
  report_of_isOfEmission {cause : SemanticCause} (h : cause.isOfEmission = true) (l : Location) :
    report ⟨cause, l⟩ = ⟨cause, place l⟩

/-- All errors are the same where they stand. -/
abbrev Reporting.faithful (place : Location → Location) : Reporting :=
  ⟨place, SemanticError.relocate place, fun _ _ => rfl⟩

/-- A refusal for a cause of the emission. -/
theorem Reporting.error_eq (v : Reporting) {α : Type} {cause : SemanticCause} {l : Location}
    (h : cause.isOfEmission) : (Except.error ⟨cause, v.place l⟩ : Except SemanticError α) =
      (Except.error ⟨cause, l⟩).mapError v.report :=
  congrArg Except.error (v.report_of_isOfEmission h l).symm

/-- The classes of a scope with other locations. -/
def Scope.relocate (place : Location → Location) (s : Scope) : Scope :=
  { s with registry := s.registry.relocate place }

/-- What accesses start from, at another location. -/
def Root.relocate (place : Location → Location) : Root → Root
  | .code base => .code base
  | .className name location => .className name (place location)

section Parts

variable (place : Location → Location)

/-! ## Questions about operands -/

theorem isBare_relocate (e : Expr) : isBare (e.relocate place) = isBare e := by
  cases e <;> rfl

theorem isProduct_relocate (e : Expr) : isProduct (e.relocate place) = isProduct e := by
  cases e <;> rfl

theorem concatenates_relocate (first : Expr) (rest : List (SumOp × Expr)) :
    concatenates (first.relocate place) (Expr.relocateAdded place rest) =
      concatenates first rest := by
  rw [concatenates, concatenates, Expr.isStringLiteral_relocate,
    Expr.relocateAdded_eq_map, any_map]
  congr 2
  funext operand
  exact operand.2.isStringLiteral_relocate place

theorem isDescending_relocate (step : Option Expression) :
    isDescending (Expression.relocate? place step) = isDescending step := by
  cases step with
  | none => rfl
  | some e =>
    change ((e.relocate place).tree.integer?).any _ = e.tree.integer?.any _
    rw [Expression.tree_relocate, Expr.integer?_relocate]

/-! ## Targets of calls -/

variable (scope : Scope)

theorem Root.ofName_relocate (name : String) (location : Location) :
    Root.ofName (scope.relocate place) name (place location) =
      (Root.ofName scope name location).relocate place := by
  have hcontains : (scope.relocate place).registry.contains name = scope.registry.contains name :=
    scope.registry.contains_relocate place name
  unfold Root.ofName
  rw [hcontains]
  split <;> rfl

theorem Root.toCode_relocate (root : Root) : (root.relocate place).toCode = root.toCode := by
  cases root <;> rfl

theorem methodCallCode_relocate (receiver : Code) (method : String) (arguments : List Code) :
    methodCallCode (scope.relocate place) receiver method arguments =
      methodCallCode scope receiver method arguments := by
  have hdeclares : (scope.relocate place).registry.anyDeclares method = _ :=
    scope.registry.anyDeclares_relocate place method
  unfold methodCallCode
  rw [hdeclares]
  rfl

theorem arityError_relocate (name : String) (values : List Expression) (argumentsSpan span : Span)
    (expected : String) :
    arityError ⟨name, ⟨Expression.relocateAll place values, argumentsSpan.relocate place⟩,
        span.relocate place⟩ expected =
      (arityError ⟨name, ⟨values, argumentsSpan⟩, span⟩ expected).relocate place := by
  unfold arityError
  rw [Expression.relocateAll_eq_map, length_map]
  rfl

variable (v : Reporting)

theorem staticTarget_relocate (className method : String) (location : Location) :
    staticTarget (scope.relocate v.place) className method (v.place location) =
      (staticTarget scope className method location).mapError v.report := by
  have howner : (scope.relocate v.place).registry.owner? className method = _ :=
    scope.registry.owner?_relocate v.place className method
  unfold staticTarget
  rw [howner]
  cases scope.registry.owner? className method with
  | some owner =>
    change Except.ok (escape (owner.relocate v.place).name, _) = _
    rw [ClassDef.name_relocate]
    rfl
  | none =>
    dsimp only [Option.map_none]
    split
    · rfl
    · exact v.error_eq (by rfl)

theorem superTarget_relocate (superclass : Option String) (location : Location) :
    superTarget (scope.relocate v.place) superclass (v.place location) =
      (superTarget scope superclass location).mapError v.report := by
  obtain ⟨registry, layouts, className, receiver, _, _, _, _⟩ := scope
  have hsuperclass (name : String) : ((registry.relocate v.place).get? name).bind
    ClassDef.superclass =
      (registry.get? name).bind ClassDef.superclass := by
    rw [ClassRegistry.get?_relocate, Option.bind_map]
    congr 1
    funext c
    exact c.superclass_relocate v.place
  unfold superTarget Scope.relocate
  cases className with
  | none => exact v.error_eq (by rfl)
  | some className =>
    cases receiver with
    | none => exact v.error_eq (by rfl)
    | some receiver =>
      cases superclass with
      | some name =>
        dsimp only
        rw [ClassRegistry.contains_relocate]
        split
        · rfl
        · exact v.error_eq (by rfl)
      | none =>
        dsimp only
        rw [hsuperclass]
        split
        · rfl
        · exact v.error_eq (by rfl)

end Parts

/-! ## Expressions -/

section Expressions

variable {v : Reporting} {scope : Scope}

/-- A slice with bounds, if its bounds have the same emitted form at other locations. -/
theorem subscript_range_relocate {lower upper step : Option Expression}
    (hlower : ∀ e ∈ lower, ∀ kind, bound (scope.relocate v.place) kind (e.relocate v.place) =
      (bound scope kind e).mapError v.report)
    (hupper : ∀ e ∈ upper, ∀ kind, bound (scope.relocate v.place) kind (e.relocate v.place) =
      (bound scope kind e).mapError v.report)
    (hstep : ∀ e ∈ step, expression (scope.relocate v.place) (e.relocate v.place) =
      (expression scope e).mapError v.report) :
    subscript (scope.relocate v.place) ((Slice.range lower upper step).relocate v.place) =
      (subscript scope (.range lower upper step)).mapError v.report := by
  have hdescending := isDescending_relocate v.place step
  cases lower <;> cases upper <;> cases step <;>
    simp only [Expression.relocate?] at hdescending <;>
    simp only [subscript, Slice.relocate, Expression.relocate?, mapError_bind,
      mapError_pure, mapError_ok,
      Option.mem_def, hdescending, hlower, hupper, hstep]

/-- A call of a known function, if its arguments have the same emitted form at other locations. -/
theorem functionCall_relocate_of {name : String} {values : List Expression}
    {argumentsSpan span : Span}
    (hvalues : expressions (scope.relocate v.place) (Expression.relocateAll v.place values) =
      (expressions scope values).mapError v.report)
    (hoperators : ∀ e ∈ values, operators (scope.relocate v.place) (e.tree.relocate v.place) =
      (operators scope e.tree).mapError v.report) :
    functionCall (scope.relocate v.place)
        (FunctionCall.relocate v.place ⟨name, ⟨values, argumentsSpan⟩, span⟩) =
      (functionCall scope ⟨name, ⟨values, argumentsSpan⟩, span⟩).mapError v.report := by
  have hexpression : ∀ e ∈ values, expression (scope.relocate v.place) (e.relocate v.place) =
      (expression scope e).mapError v.report := by
    rintro ⟨tree, _⟩ he
    exact hoperators _ he
  have hoperand : ∀ e ∈ values, operand (scope.relocate v.place) (e.relocate v.place) =
      (operand scope e).mapError v.report := by
    rintro ⟨tree, _⟩ he
    simp only [Expression.relocate, operand, hoperators _ he, Expr.isSum_relocate, mapError_bind,
      mapError_pure]
  have hlast : ∀ e ∈ values, ∀ descending,
    rangeLast (scope.relocate v.place) descending (e.relocate v.place) =
      (rangeLast scope descending e).mapError v.report := by
    rintro ⟨tree, _⟩ he descending
    rw [Expression.relocate, rangeLast, rangeLast, Expr.integer?_relocate, Expr.isSum_relocate]
    cases tree.integer?.bind (foldLast? descending) with
    | some code => rfl
    | none =>
      dsimp only
      rw [hoperators _ he, mapError_bind]
      rfl
  have hrefuse (expected : String) :
      (.error
        (arityError ⟨name, ⟨Expression.relocateAll v.place values, argumentsSpan.relocate v.place⟩,
        span.relocate v.place⟩ expected) : Except SemanticError Code) =
        (Except.error (arityError ⟨name, ⟨values, argumentsSpan⟩, span⟩ expected)).mapError
          v.report := by
    rw [arityError_relocate]
    exact v.error_eq (by rfl)
  rw [FunctionCall.relocate, Arguments.relocate, functionCall.eq_def, functionCall.eq_def]
  dsimp only
  cases callForm name with
  | printLine | rename _ | elementwise _ | statistics _ | passThrough =>
    simp only [hvalues, mapError_bind, mapError_pure]
  | range =>
    rcases values with _ | ⟨start, _ | ⟨stop, _ | ⟨step, _ | ⟨_, _⟩⟩⟩⟩
    · exact hrefuse "1 to 3"
    · simp only [Expression.relocateAll, hlast start (by simp), mapError_bind, mapError_pure]
    · simp only [Expression.relocateAll, hoperand start (by simp), hlast stop (by simp),
        mapError_bind, mapError_pure]
    · have hdescending := isDescending_relocate v.place (some step)
      simp only [Expression.relocate?] at hdescending
      simp only [Expression.relocateAll, hoperand start (by simp), hexpression step (by simp),
        hlast stop (by simp), hdescending, mapError_bind, mapError_pure]
    · exact hrefuse "1 to 3"
  | firstDimension | truncate =>
    rcases values with _ | ⟨value, _ | ⟨_, _⟩⟩
    · exact hrefuse "1"
    · simp only [Expression.relocateAll, hexpression value mem_cons_self, mapError_bind,
        mapError_pure]
    · exact hrefuse "1"
  | operatorChain op =>
    have hlength : (Expression.relocateAll v.place values).length = values.length := by
      rw [Expression.relocateAll_eq_map, length_map]
    simp only [hlength]
    split
    · exact hrefuse "at least 2"
    · simp only [hvalues, mapError_bind, mapError_pure]
  | identity =>
    rcases values with _ | ⟨value, _ | ⟨_, _⟩⟩
    · exact hrefuse "1"
    · simp only [Expression.relocateAll, hexpression value mem_cons_self,
        Expression.tree_relocate,
        Expr.primary?_relocate, Option.isNone_map, mapError_bind, mapError_pure]
    · exact hrefuse "1"

variable (v scope)

mutual

theorem expression_relocate : ∀ e :
    Expression, expression (scope.relocate v.place) (e.relocate v.place) =
    (expression scope e).mapError v.report
  | ⟨tree, _⟩ => operators_relocate tree

theorem expressions_relocate : ∀ es : List Expression,
    expressions (scope.relocate v.place) (Expression.relocateAll v.place es) =
      (expressions scope es).mapError v.report
  | [] => rfl
  | e :: es => by
    simp only [Expression.relocateAll, expressions, mapError_bind, mapError_pure,
      expression_relocate e,
      expressions_relocate es]

theorem operators_relocate : ∀ e : Expr, operators (scope.relocate v.place) (e.relocate v.place) =
    (operators scope e).mapError v.report
  | .or first rest => by
    simp only [Expr.relocate, operators, mapError_bind, mapError_pure, operators_relocate first,
      operands_relocate .or rest]
  | .and first rest => by
    simp only [Expr.relocate, operators, mapError_bind, mapError_pure, operators_relocate first,
      operands_relocate .and rest]
  | .not operand => by
    simp only [Expr.relocate, operators, mapError_bind, mapError_pure, operators_relocate operand,
      isBare_relocate]
  | .compare first rest => by
    simp only [Expr.relocate, operators, mapError_bind, mapError_pure, operators_relocate first,
      comparisons_relocate rest]
  | .sum first rest => by
    simp only [Expr.relocate, operators, mapError_bind, mapError_pure, operators_relocate first,
      summands_relocate _ rest, concatenates_relocate, isProduct_relocate]
  | .product first rest => by
    simp only [Expr.relocate, operators, mapError_bind, mapError_pure, operators_relocate first,
      factors_relocate rest]
  | .sign op operand => by
    simp only [Expr.relocate, operators, mapError_bind, mapError_pure, operators_relocate operand]
  | .power base exponent => by
    simp only [Expr.relocate, operators, mapError_bind, mapError_pure, primary_relocate base,
      operators_relocate exponent]
  | .primary p => primary_relocate p

theorem operands_relocate (op : Operator) : ∀ es : List Expr,
    operands (scope.relocate v.place) op (Expr.relocateAll v.place es) =
      (operands scope op es).mapError v.report
  | [] => rfl
  | e :: es => by
    simp only [Expr.relocateAll, operands, mapError_bind, mapError_pure, operators_relocate e,
      operands_relocate op es]

theorem comparisons_relocate : ∀ es : List (Comparison × Expr),
    comparisons (scope.relocate v.place) (Expr.relocateCompared v.place es) =
      (comparisons scope es).mapError v.report
  | [] => rfl
  | (op, e) :: es => by
    simp only [Expr.relocateCompared, comparisons, mapError_bind, mapError_pure,
      operators_relocate e,
      comparisons_relocate es]

theorem summands_relocate (joins : Bool) : ∀ es : List (SumOp × Expr),
    summands (scope.relocate v.place) joins (Expr.relocateAdded v.place es) =
      (summands scope joins es).mapError v.report
  | [] => rfl
  | (op, e) :: es => by
    simp only [Expr.relocateAdded, summands, mapError_bind, mapError_pure, operators_relocate e,
      summands_relocate joins es, isProduct_relocate]

theorem factors_relocate : ∀ es : List (TermOp × Expr),
    factors (scope.relocate v.place) (Expr.relocateMultiplied v.place es) =
      (factors scope es).mapError v.report
  | [] => rfl
  | (op, e) :: es => by
    simp only [Expr.relocateMultiplied, factors, mapError_bind, mapError_pure, operators_relocate e,
      factors_relocate es]

theorem primary_relocate : ∀ p : Primary, primary (scope.relocate v.place) (p.relocate v.place) =
    (primary scope p).mapError v.report
  | ⟨atom, trailers, span⟩ => by
    have hatom : (do
        let code ← atomCode (scope.relocate v.place) (atom.relocate v.place)
        accesses (scope.relocate v.place) (.code code) (Trailer.relocateAll v.place trailers)) =
          (do
            let code ← atomCode scope atom
            accesses scope (.code code) trailers).mapError v.report := by
      rw [atomCode_relocate atom, mapError_bind]
      congr 1
      funext code
      exact accesses_relocate (.code code) trailers
    cases atom with
    | name name =>
      have haccesses := accesses_relocate (.ofName scope name span.start) trailers
      rw [← Root.ofName_relocate] at haccesses
      exact haccesses
    | _ => exact hatom

theorem accesses_relocate : ∀ (root : Root) (trailers : List Trailer),
    accesses (scope.relocate v.place) (root.relocate v.place)
      (Trailer.relocateAll v.place trailers) =
      (accesses scope root trailers).mapError v.report
  | root, [] => congrArg Except.ok (root.toCode_relocate v.place)
  | .code base, .member name _ :: .call ⟨values, _⟩ :: rest => by
    simp only [Trailer.relocateAll, Trailer.relocate, Arguments.relocate, Root.relocate, accesses,
      mapError_bind, expressions_relocate values, methodCallCode_relocate]
    congr 1
    funext arguments
    exact accesses_relocate (.code _) rest
  | .className className location, .member name _ :: .call ⟨values, _⟩ :: rest => by
    simp only [Trailer.relocateAll, Trailer.relocate, Arguments.relocate, Root.relocate, accesses,
      mapError_bind, expressions_relocate values, staticTarget_relocate]
    congr 1
    funext target
    congr 1
    funext arguments
    exact accesses_relocate (.code _) rest
  | .code base, [.member name span] => rfl
  | .code base, .member name span :: .member name' span' :: rest =>
    accesses_relocate (.code (memberCode scope base name)) (.member name' span' :: rest)
  | .code base, .member name span :: .subscript slices :: rest =>
    accesses_relocate (.code (memberCode scope base name)) (.subscript slices :: rest)
  | .className _ _, [.member _ _] | .className _ _, .member _ _ :: .member _ _ :: _
  | .className _ _, .member _ _ :: .subscript _ :: _ => v.error_eq (by rfl)
  | .code _, .call ⟨values, _⟩ :: rest | .className _ _, .call ⟨values, _⟩ :: rest => by
    simp only [Trailer.relocateAll, Trailer.relocate, Arguments.relocate, Root.relocate, accesses,
      mapError_bind, expressions_relocate values]
    congr 1
    funext arguments
    exact accesses_relocate (.code _) rest
  | root, .subscript slices :: rest => by
    simp only [Trailer.relocateAll, Trailer.relocate, accesses, mapError_bind,
      subscripts_relocate slices,
      Root.toCode_relocate]
    congr 1
    funext indices
    exact accesses_relocate (.code _) rest

theorem subscripts_relocate : ∀ slices : List Slice,
    subscripts (scope.relocate v.place) (Slice.relocateAll v.place slices) =
      (subscripts scope slices).mapError v.report
  | [] => rfl
  | .index index :: rest => by
    simp only [Slice.relocateAll, Slice.relocate, subscripts, subscript, mapError_bind,
      mapError_pure,
      bound_relocate .index index, subscripts_relocate rest]
  | .range lower upper step :: rest => by
    have hslice := subscript_range_relocate (bound_relocate? lower) (bound_relocate? upper)
      (expression_relocate? step)
    simp only [Slice.relocateAll, subscripts, mapError_bind, mapError_pure, hslice,
      subscripts_relocate rest]

theorem bound_relocate? : ∀ limit : Option Expression, ∀ e ∈ limit, ∀ kind,
    bound (scope.relocate v.place) kind (e.relocate v.place) =
      (bound scope kind e).mapError v.report
  | none => nofun
  | some e => by
    rintro _ ⟨⟩ kind
    exact bound_relocate kind e

theorem expression_relocate? : ∀ step : Option Expression, ∀ e ∈ step,
    expression (scope.relocate v.place) (e.relocate v.place) =
      (expression scope e).mapError v.report
  | none => nofun
  | some e => by
    rintro _ ⟨⟩
    exact expression_relocate e

theorem bound_relocate (kind : Bound) : ∀ e : Expression,
    bound (scope.relocate v.place) kind (e.relocate v.place) =
      (bound scope kind e).mapError v.report
  | ⟨tree, span⟩ => by
    have hoperators := operators_relocate tree
    simp only [Expression.relocate, bound, Expr.integer?_relocate, Expr.isSum_relocate]
    split
    · rfl
    · rw [hoperators, mapError_bind]
      rfl

theorem atomCode_relocate : ∀ atom :
    Atom, atomCode (scope.relocate v.place) (atom.relocate v.place) =
    (atomCode scope atom).mapError v.report
  | .name _ | .boolean _ | .none | .integer _ | .float _ | .str _ => rfl
  | .formatted parts => by
    simp only [Atom.relocate, atomCode, mapError_bind, mapError_pure, formattedParts_relocate parts]
  | .group inner => by
    simp only [Atom.relocate, atomCode, mapError_bind, mapError_pure, expression_relocate inner]
  | .list elements => by
    simp only [Atom.relocate, atomCode, mapError_bind, mapError_pure, expressions_relocate elements]
  | .library call => functionCall_relocate call
  | .builtin call => functionCall_relocate call
  | .super call => superCall_relocate call

theorem superCall_relocate : ∀ call :
    SuperCall, superCall (scope.relocate v.place) (call.relocate v.place) =
    (superCall scope call).mapError v.report
  | ⟨superclass, method, ⟨values, _⟩, span⟩ => by
    have hstart : (span.relocate v.place).start = v.place span.start := rfl
    simp only [SuperCall.relocate, Arguments.relocate, superCall, hstart, mapError_bind,
      mapError_pure,
      superTarget_relocate, staticTarget_relocate, expressions_relocate values]

theorem functionCall_relocate : ∀ call : FunctionCall,
    functionCall (scope.relocate v.place) (call.relocate v.place) =
      (functionCall scope call).mapError v.report
  | ⟨_, ⟨values, _⟩, _⟩ =>
    functionCall_relocate_of (expressions_relocate values) (operators_of_mem values)

/-- The arguments of a call one by one. -/
theorem operators_of_mem : ∀ es : List Expression, ∀ e ∈ es,
    operators (scope.relocate v.place) (e.tree.relocate v.place) =
      (operators scope e.tree).mapError v.report
  | [] => nofun
  | ⟨tree, _⟩ :: es => forall_mem_cons.mpr ⟨operators_relocate tree, operators_of_mem es⟩

theorem formattedParts_relocate : ∀ parts : List FormattedPart,
    formattedParts (scope.relocate v.place) (FormattedPart.relocateAll v.place parts) =
      (formattedParts scope parts).mapError v.report
  | [] => rfl
  | .literal text :: rest => by
    simp only [FormattedPart.relocateAll, FormattedPart.relocate, formattedParts, mapError_bind,
      mapError_pure, formattedParts_relocate rest]
  | .embedded inner :: rest => by
    simp only [FormattedPart.relocateAll, FormattedPart.relocate, formattedParts, mapError_bind,
      mapError_pure, expression_relocate inner, formattedParts_relocate rest]

end

end Expressions

end Emit

end Offside
