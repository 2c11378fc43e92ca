import Offside.Emit.Program
import Offside.Proofs.Emit.Dispatch
import Offside.Proofs.Outcome
import Offside.Proofs.Tree.Classes

/-!
# Methods in emitted programs

The code of a class is what every class has and the forms of its methods, so the code of a program
holds the forms of all that its classes have (`definesStatic_classDef`).
-/

namespace Offside.Emit

open Target List

/-! ## Steps that only compute -/

section Lifted

variable {α β : Type} {p p' : Progress}

/-- A computation that is followed by a step. -/
theorem exists_of_lift_bind {x : Except SemanticError α} {f : α → Emission β} {b : β}
    (h : ((liftM x : Emission α) >>= f) p = .ok b p') : ∃ a, x = .ok a ∧ f a p = .ok b p' := by
  obtain ⟨a, mid, hx, hf⟩ := exists_of_step_bind h
  cases x with
  | ok a' =>
    cases hx
    exact ⟨a, rfl, hf⟩
  | error e => cases hx

theorem mapM_eq_ok_of_lift {f : α → Except SemanticError β} {xs : List α} {ys : List β}
    (h : (xs.mapM fun x => (liftM (f x) : Emission β)) p = .ok ys p') :
    xs.mapM f = .ok ys ∧ p' = p := by
  induction xs generalizing ys p' with
  | nil =>
    cases h
    exact ⟨rfl, rfl⟩
  | cons x xs ih =>
    rw [mapM_cons] at h
    obtain ⟨y, hy, h⟩ := exists_of_lift_bind h
    obtain ⟨rest, mid, hrest, h⟩ := exists_of_step_bind h
    cases h
    obtain ⟨hrest, hmid⟩ := ih hrest
    refine ⟨?_, hmid⟩
    rw [mapM_cons, hy, hrest]
    rfl

/-- The code of an assignment that declares the given names global: in front of its only target, or
in a line before it. -/
def storeItems (a : Assignment) (declared : List String) (targets : List Code)
    (type : Option TypeName) (values : List Code) : List Item :=
  if declared = [] then [.assign false targets type values]
  else if a.targets.length = 1 then [.assign true targets type values]
  else [.globals declared, .assign false targets type values]

theorem exists_of_assignment {scope : Scope} {a : Assignment} {items : List Item}
    (h : assignment scope a p = .ok items p') :
    ∃ targets type values declared, assignmentParts scope a = .ok (targets, type, values) ∧
      globalTargets scope a p = .ok declared p' ∧
        items = storeItems a declared targets type values := by
  obtain ⟨⟨targets, type, values⟩, hparts, h⟩ := exists_of_lift_bind h
  obtain ⟨declared, mid, hdeclared, h⟩ := exists_of_step_bind h
  unfold storeItems
  cases declared with
  | nil =>
    cases h
    exact ⟨targets, type, values, [], hparts, hdeclared, rfl⟩
  | cons name declared =>
    dsimp only at h
    split at h <;> cases h
    · exact ⟨targets, type, values, _, hparts,
        hdeclared, by rw [if_neg (cons_ne_nil _ _), if_pos ‹_›]⟩
    · exact ⟨targets, type, values, _, hparts,
        hdeclared, by rw [if_neg (cons_ne_nil _ _), if_neg ‹_›]⟩

end Lifted

/-! ## Steps with blocks -/

section Blocks

variable {β : Type} {scope : Scope} {body : List Statement} {p p' : Progress} {b : β}

/-- A statement in front of a block. -/
theorem exists_of_block_cons {first : Statement} {rest : List Statement} {items : List Item}
    (h : block scope (first :: rest) p = .ok items p') : ∃ items₁ items₂ mid,
      statement scope first p = .ok items₁ mid ∧ block scope rest mid = .ok items₂ p' ∧
        items = items₁ ++ items₂ := by
  obtain ⟨items₁, mid, hfirst, h⟩ := exists_of_step_bind h
  obtain ⟨items₂, mid', hrest, h⟩ := exists_of_step_bind h
  cases h
  exact ⟨items₁, items₂, mid, hfirst, hrest, rfl⟩

/-- A computation in front of a block. -/
theorem exists_of_block {x : Except SemanticError Code} {f : Code → List Item → β}
    (h : ((liftM x : Emission Code) >>= fun code => block scope body >>= fun inner =>
      pure (f code inner)) p =
      .ok b p') : ∃ code inner, x = .ok code ∧ block scope body p = .ok inner p' ∧
        b = f code inner := by
  obtain ⟨code, hcode, h⟩ := exists_of_lift_bind h
  obtain ⟨inner, mid, hinner, h⟩ := exists_of_step_bind h
  cases h
  exact ⟨code, inner, hcode, hinner, rfl⟩

/-- A condition in front of a block and of what is done otherwise. -/
theorem exists_of_branches {x : Except SemanticError Code} {otherwise : Otherwise}
    {f : Code → List Item → Alternative → β}
    (h : ((liftM x : Emission Code) >>= fun code => block scope body >>=
      fun inner => alternative scope otherwise >>= fun branches => pure (f code inner branches))
        p = .ok b p') :
    ∃ code inner mid branches, x = .ok code ∧ block scope body p = .ok inner mid ∧
      alternative scope otherwise mid = .ok branches p' ∧ b = f code inner branches := by
  obtain ⟨code, hcode, h⟩ := exists_of_lift_bind h
  obtain ⟨inner, mid, hinner, h⟩ := exists_of_step_bind h
  obtain ⟨branches, mid', hbranches, h⟩ := exists_of_step_bind h
  cases h
  exact ⟨code, inner, mid, branches, hcode, hinner, hbranches, rfl⟩

theorem exists_of_function {name : String} {parameters : List Parameter} {hint : Option TypeHint}
    {span : Span} {items : List Item}
    (h : statement scope (.function ⟨name, parameters, hint, body, span⟩) p = .ok items p') :
    ∃ formals returns inner, parameters.mapM (formal scope) = .ok formals ∧
      hintType scope hint = .ok returns ∧
      block scope.ofFunction body p = .ok inner p' ∧
        items = [.function ⟨escape name, formals, returns⟩ inner] := by
  obtain ⟨formals, mid, hformals, h⟩ := exists_of_step_bind h
  obtain ⟨returns, hreturns, h⟩ := exists_of_lift_bind h
  obtain ⟨inner, mid', hinner, h⟩ := exists_of_step_bind h
  cases h
  obtain ⟨hfound, rfl⟩ := mapM_eq_ok_of_lift hformals
  exact ⟨formals, returns, inner, hfound, hreturns, hinner, rfl⟩

end Blocks

/-! ## Classes -/

/-- The layouts of a scope are right about the classes that need an initializer. -/
def Scope.KnowsInitializers (scope : Scope) : Prop :=
  ∀ l ∈ scope.layouts, l.needsInitializer =
    (scope.registry.owner? l.className initializerName).isNone

variable {c : ClassDef} {registry : ClassRegistry} {f : FunctionDef}

theorem needsInitializer_ofClass {layouts : List Layout} {l : Layout}
    (h : Layout.ofClass registry layouts c = .ok l) :
    l.needsInitializer = (registry.owner? l.className initializerName).isNone := by
  obtain ⟨fields, -, rfl⟩ := exists_of_map_eq_ok h
  rfl

theorem knowsInitializers_all {layouts : List Layout} (h : Layout.all registry = .ok layouts) :
    Scope.KnowsInitializers { registry, layouts } := by
  refine of_foldlM (fun layouts => Scope.KnowsInitializers { registry, layouts })
    (fun c _ before next hbefore hnext => ?_) (forall_mem_nil _) h
  obtain ⟨l, hl, rfl⟩ := exists_of_map_eq_ok hnext
  exact forall_mem_append.mpr ⟨hbefore, forall_mem_singleton.mpr (needsInitializer_ofClass hl)⟩

section Classes

variable {scope : Scope} {l : Layout} {p p' : Progress} {items : List Item}

theorem of_enterClass (h : enterClass scope c p = .ok l p') :
    l ∈ scope.layouts ∧ l.className = c.name ∧ p'.globals = p.globals := by
  unfold enterClass at h
  cases hlayout : scope.layout? c.name with
  | none =>
    simp only [hlayout] at h
    cases h
  | some found =>
    simp only [hlayout] at h
    obtain ⟨_, mid, hmid, h⟩ := exists_of_step_bind h
    cases hmid
    cases h
    unfold Scope.layout? at hlayout
    have hname := find?_some hlayout
    exact ⟨mem_of_find?_eq_some hlayout, eq_of_beq hname, rfl⟩

/-- The code of a class: what every class has, and its methods. -/
theorem exists_of_classDef (h : statement scope (.classDef c) p = .ok items p') :
    ∃ l mid more, l ∈ scope.layouts ∧ l.className = c.name ∧
      methods scope l c.body mid = .ok more p' ∧
      items = classItems l ++ more := by
  obtain ⟨name, superclass, body, attributes, span⟩ := c
  obtain ⟨l, mid, henter, h⟩ := exists_of_step_bind h
  obtain ⟨more, mid', hmore, h⟩ := exists_of_step_bind h
  cases h
  obtain ⟨hl, hname, -⟩ := of_enterClass henter
  exact ⟨l, mid, more, hl, hname, hmore, rfl⟩

theorem exists_of_methodHead {signature : Signature} {formals : List Formal}
    (h : methodHead scope l f = .ok (signature, formals)) :
    methodFormals scope l.marker f.parameters = .ok formals ∧ ∃ returns,
      (if f.isInitializer then .ok none else hintType scope f.returnHint) = .ok returns ∧
      signature =
        ⟨staticName, .tag l.name :: .tag (memberName f.name l.className) :: formals, returns⟩ := by
  obtain ⟨found, hfound, h⟩ := exists_of_bind_eq_ok h
  dsimp only at h
  split at h
  · obtain ⟨returns, hreturns, heq⟩ := exists_of_bind_eq_ok h
    cases heq
    exact ⟨hfound, returns, by rwa [if_pos ‹_›], rfl⟩
  · obtain ⟨returns, hreturns, heq⟩ := exists_of_bind_eq_ok h
    cases heq
    exact ⟨hfound, returns, by rwa [if_neg ‹_›], rfl⟩

/-- The code of a method, in front of that of the methods behind it. -/
theorem exists_of_method {rest : List Statement}
    (h : methods scope l (.function f :: rest) p = .ok items p') :
    ∃ formals returns body mid more, methodFormals scope l.marker f.parameters = .ok formals ∧
      (if f.isInitializer then .ok none else hintType scope f.returnHint) = .ok returns ∧
      block (scope.ofMethod l.className f) f.body p = .ok body mid ∧
      methods scope l rest mid = .ok more p' ∧
      items = .blank ::
        .function
          ⟨staticName, .tag l.name :: .tag (memberName f.name l.className) :: formals, returns⟩
          (body ++ finalReturn f) ::
        dispatchItems l f (memberName f.name l.className) formals ++ more := by
  obtain ⟨name, parameters, returnHint, body, span⟩ := f
  obtain ⟨⟨signature, formals⟩, hhead, h⟩ := exists_of_lift_bind h
  obtain ⟨inner, mid, hinner, h⟩ := exists_of_step_bind h
  obtain ⟨more, mid', hmore, h⟩ := exists_of_step_bind h
  cases h
  obtain ⟨hformals, returns, hreturns, rfl⟩ := exists_of_methodHead hhead
  exact ⟨formals, returns, inner, mid, more, hformals, hreturns, hinner, hmore, rfl⟩

end Classes

/-! ## Forms of methods -/

/-- The form of a method that the class spelled `owner` has itself is among the items. -/
def DefinesStatic (items : List Item) (owner method : String) : Prop :=
  ∃ formals returns body,
    .function ⟨staticName, .tag owner :: .tag method :: formals, returns⟩ body ∈ items

/-- A form of a method that is chosen by the class of its first argument is among the items. -/
def DefinesMethod (items : List Item) (method : String) : Prop :=
  ∃ formals returns value, .equation ⟨methodName, .tag method :: formals, returns⟩ value ∈ items

theorem DefinesStatic.mono {items items' : List Item} {owner method : String}
    (hsub : items ⊆ items') (h : DefinesStatic items owner method) :
    DefinesStatic items' owner method := by
  obtain ⟨formals, returns, body, hmem⟩ := h
  exact ⟨formals, returns, body, hsub hmem⟩

theorem DefinesMethod.mono {items items' : List Item} {method : String} (hsub : items ⊆ items')
    (h : DefinesMethod items method) : DefinesMethod items' method := by
  obtain ⟨formals, returns, value, hmem⟩ := h
  exact ⟨formals, returns, value, hsub hmem⟩

section Forms

variable {scope : Scope} {l : Layout} {p p' : Progress} {items : List Item}

theorem definesMethod_dispatchItems (l : Layout) (h : f.parameters ≠ []) (name : String)
    (formals : List Formal) :
    DefinesMethod (dispatchItems l f name formals) name := by
  have hsome : f.parameters.isEmpty = false := isEmpty_eq_false_iff.mpr h
  exact ⟨formals, none, .staticCall l.name name (f.parameters.map fun p => nameCode p.name),
    by simp [dispatchItems, hsome]⟩

/-- The code of a class holds both forms of every method. -/
theorem exists_of_mem_methods {body : List Statement} (h : methods scope l body p = .ok items p')
    (hf : f ∈ body.filterMap Statement.function?) :
    ∃ formals returns inner before after, methodFormals scope l.marker f.parameters = .ok formals ∧
      (if f.isInitializer then .ok none else hintType scope f.returnHint) = .ok returns ∧
      block (scope.ofMethod l.className f) f.body before = .ok inner after ∧
      .function
        ⟨staticName, .tag l.name :: .tag (memberName f.name l.className) :: formals, returns⟩
        (inner ++ finalReturn f) ∈ items ∧
      dispatchItems l f (memberName f.name l.className) formals ⊆ items := by
  induction body generalizing p items with
  | nil => cases hf
  | cons first rest ih =>
    cases first with
    | function g =>
      obtain ⟨formals, returns, inner, mid, more, hformals, hreturns, hinner, hmore, rfl⟩ :=
        exists_of_method h
      rcases mem_cons.mp hf with rfl | hf
      · refine ⟨formals, returns, inner, p, mid, hformals, hreturns,
          hinner, by simp, fun i hi => ?_⟩
        exact mem_append_left _ (mem_cons_of_mem _ (mem_cons_of_mem _ hi))
      · obtain ⟨formals, returns, inner, before, after, hformals, hreturns, hinner, hmem, hsub⟩ :=
          ih hmore hf
        exact ⟨formals, returns, inner, before, after, hformals, hreturns, hinner,
          mem_append_right _ hmem,
          fun i hi => mem_append_right _ (hsub hi)⟩
    | _ => exact ih h hf

theorem definesStatic_classItems (h : l.needsInitializer) :
    DefinesStatic (classItems l) l.name initializerName :=
  ⟨[typed "self" l.marker], none,
    [.returns [selfCode]], by simp [classItems, h, defaultInitializer]⟩

/-- The code of a class holds the forms of all that the class has. -/
theorem definesStatic_classDef (hscope : scope.KnowsInitializers)
    (h : statement scope (.classDef c) p = .ok items p') {tag : String}
    (htag : HasForm scope.registry c tag) :
    DefinesStatic items (escape c.name) tag := by
  obtain ⟨l, mid, more, hl, hname, hmore, rfl⟩ := exists_of_classDef h
  rw [← hname]
  rcases htag with ⟨f, hf, rfl⟩ | ⟨rfl, hnone⟩
  · rw [← hname]
    obtain ⟨formals, returns, inner, -, -, -, -, -, hmem, -⟩ := exists_of_mem_methods hmore hf
    exact ⟨formals, returns, _, mem_append_right _ hmem⟩
  · have hneeds : l.needsInitializer := by rw [hscope l hl, hname, hnone]
    exact (definesStatic_classItems hneeds).mono (subset_append_left _ _)

theorem definesMethod_classDef (h : statement scope (.classDef c) p = .ok items p')
    (hf : f ∈ c.methods) (hparameters : f.parameters ≠ []) :
    DefinesMethod items (memberName f.name c.name) := by
  obtain ⟨l, mid, more, hl, hname, hmore, rfl⟩ := exists_of_classDef h
  rw [← hname]
  obtain ⟨formals, -, -, -, -, -, -, -, -, hsub⟩ := exists_of_mem_methods hmore hf
  exact (definesMethod_dispatchItems l hparameters _ formals).mono fun i hi =>
    mem_append_right _ (hsub hi)

end Forms

/-! ## Programs -/

section Programs

variable {scope : Scope} {p p' : Progress} {source : Program} {items : List Item}

/-- The code of a program holds the code of each of its statements. -/
theorem exists_of_mem_statements (h : statements scope source p = .ok items p') {s : Statement}
    (hs : s ∈ source) :
    ∃ before after inner, statement scope s before = .ok inner after ∧ inner ⊆ items := by
  induction source generalizing p items with
  | nil => cases hs
  | cons first rest ih =>
    obtain ⟨inner, mid, hinner, h⟩ := exists_of_step_bind h
    obtain ⟨more, mid', hmore, h⟩ := exists_of_step_bind h
    cases h
    rcases mem_cons.mp hs with rfl | hs
    · exact ⟨p, mid, inner, hinner, by simp⟩
    · obtain ⟨before, after, found, hfound, hsub⟩ := ih hmore hs
      exact ⟨before, after, found, hfound, fun i hi => mem_append_right _ (hsub hi)⟩

/-- The code of a program consists of the items in front of it and those of its statements. -/
theorem exists_of_programItems (h : programItems registry source p = .ok items p') :
    ∃ layouts inner, Layout.all registry = .ok layouts ∧
      statements { registry, layouts } source p = .ok inner p' ∧
      items = importItems inner ++ shadowedItems registry ++ inner := by
  obtain ⟨layouts, hlayouts, h⟩ := exists_of_lift_bind h
  obtain ⟨inner, mid, hinner, h⟩ := exists_of_step_bind h
  cases h
  exact ⟨layouts, inner, hlayouts, hinner, rfl⟩

end Programs

end Offside.Emit
