import Mathlib.Data.List.Forall2
import Offside.Proofs.DispatchTargets

/-!
# Global declarations

An assignment in a loop of the emitted language makes a variable of the loop, unless its name is
declared global.  The emission decides about this with the names that it remembers and with its
scope.  The main statement says where names are declared by the positions of the assignments in the
source alone.  What carries it along the program is that the scope tells what stands around a
statement, and that the names remembered are those assigned outside functions and loops so far.
-/

namespace Offside

open Target List

/-! ## Assignments in the source -/

/-- A body that a statement stands in: that of a function or a method, or that of a loop, with its
variable. -/
inductive Around
  | function
  | loop (target : Option String)
deriving DecidableEq

def Around.isLoop : Around → Bool
  | function => false
  | loop _ => true

/-- What becomes assignments: an assignment and the bodies around it, the innermost first, or a
class, for the functions that every class has. -/
inductive Site
  | assign (a : Assignment) (around : List Around)
  | classDef

mutual

/-- The sites of a statement inside the given bodies, in the order of the source. -/
def Statement.sites (around : List Around) : Statement → List Site
  | .assign a => [.assign a around]
  | .superCall _ | .returns _ _ | .pass | .breaks | .continues | .expressions _ => []
  | .function ⟨_, _, _, body, _⟩ => Statement.allSites (.function :: around) body
  | .classDef ⟨_, _, body, _, _⟩ => .classDef :: Statement.methodSites around body
  | .conditional ⟨_, body, otherwise, _⟩ => Statement.allSites around body ++ otherwise.sites around
  | .forLoop target _ body _ => Statement.allSites (.loop (some target) :: around) body
  | .whileLoop _ body _ => Statement.allSites (.loop none :: around) body

/-- The sites of some statements. -/
def Statement.allSites (around : List Around) : List Statement → List Site
  | [] => []
  | first :: rest => first.sites around ++ Statement.allSites around rest

/-- The sites of what is done when a condition does not hold. -/
def Otherwise.sites (around : List Around) : Otherwise → List Site
  | .nothing => []
  | .elseIf ⟨_, body, otherwise, _⟩ => Statement.allSites around body ++ otherwise.sites around
  | .block body => Statement.allSites around body

/-- The sites of the methods of a class body. -/
def Statement.methodSites (around : List Around) : List Statement → List Site
  | [] => []
  | .function ⟨_, _, _, body, _⟩ :: rest =>
    Statement.allSites (.function :: around) body ++ Statement.methodSites around rest
  | _ :: rest => Statement.methodSites around rest

end

namespace Site

/-- The plain names that are assigned outside functions and loops. -/
def outerNames : Site → List String
  | assign a [] => Emit.plainTargets a
  | _ => []

theorem outerNames_assign {a : Assignment} {around : List Around} (h : around ≠ []) :
    (assign a around).outerNames = [] := by
  cases around with
  | nil => exact absurd rfl h
  | cons _ _ => rfl

/-- Whether an assignment of a name has to declare it global, behind the given sites and inside the
given bodies. -/
def NeedsGlobal (before : List Site) (around : List Around) (name : String) : Prop :=
  Around.function ∉ around ∧ (∃ body ∈ around, body.isLoop = true) ∧
    (∃ site ∈ before, name ∈ site.outerNames) ∧ Around.loop (some name) ∉ around

instance (before : List Site) (around : List Around) (name : String) :
    Decidable (NeedsGlobal before around name) :=
  inferInstanceAs (Decidable (_ ∧ _ ∧ _ ∧ _))

/-- The names that an assignment declares global, in the order of its targets. -/
def globalNames (before : List Site) (around : List Around) (a : Assignment) : List String :=
  (Emit.plainTargets a).filter (NeedsGlobal before around)

theorem globalNames_eq_nil {before : List Site} {around : List Around}
    (h : ∀ name, ¬NeedsGlobal before around name) (a : Assignment) :
    globalNames before around a = [] :=
  filter_eq_nil_iff.mpr fun name _ => by simpa using h name

end Site

/-! ## Assignments in emitted code -/

namespace Target

mutual

/-- The assignments of an item and the declarations of global names, in order. -/
def Item.stores : Item → List Item
  | .globals names => [.globals names]
  | .assign isGlobal targets type values => [.assign isGlobal targets type values]
  | .conditional _ body alternative => Item.allStores body ++ alternative.stores
  | .forLoop _ _ body | .whileLoop _ body | .function _ body => Item.allStores body
  | .blank | .library _ | .expressions _ | .returns _ | .breaks | .continues | .equation _
    _ | .abstractType _ _
  | .record _ _ _ => []

/-- Those of an alternative. -/
def Alternative.stores : Alternative → List Item
  | .nothing => []
  | .branch _ body alternative => Item.allStores body ++ alternative.stores
  | .block body => Item.allStores body

/-- Those of some items. -/
def Item.allStores : List Item → List Item
  | [] => []
  | item :: rest => item.stores ++ Item.allStores rest

end

theorem Item.allStores_append (items items' : List Item) :
    Item.allStores (items ++ items') = Item.allStores items ++ Item.allStores items' :=
  append_of_cons rfl (fun _ _ => rfl) items items'

theorem Item.allStores_singleton (item : Item) : Item.allStores [item] = item.stores := append_nil _

end Target

namespace Emit

/-- The assignments in the functions that every class has. -/
def attributeStores : List Item := [
  .assign false [.name "attributes"] none [tableCode],
  .assign false [.subscript tableCode [.name "name"]] none [.name "value"]]

/-- What a site becomes, behind the given sites.  A target without accesses becomes its name. -/
inductive Becomes (before : List Site) : Site → List Item → Prop
  | assign {a : Assignment} {around : List Around} {targets values : List Code}
    {type : Option TypeName}
      (htargets : List.Forall₂ (fun d code => d.accesses = [] → code = nameCode d.name)
        a.targets targets) :
      Becomes before (.assign a around)
        (storeItems a ((Site.globalNames before around a).map escape) targets type values)
  | classDef : Becomes before .classDef attributeStores

/-- What some sites become one after the other, behind the sites `before`. -/
inductive BecomeAll : List Site → List Site → List Item → Prop
  | nil {before : List Site} : BecomeAll before [] []
  | cons {before sites : List Site} {site : Site} {items rest : List Item}
    (hsite : Becomes before site items)
      (hrest : BecomeAll (before ++ [site]) sites rest) :
      BecomeAll before (site :: sites) (items ++ rest)

theorem BecomeAll.append {before sites sites' : List Site} {items items' : List Item}
    (h : BecomeAll before sites items) (h' : BecomeAll (before ++ sites) sites' items') :
    BecomeAll before (sites ++ sites') (items ++ items') := by
  induction h with
  | nil => rwa [append_nil] at h'
  | cons hsite _ ih =>
    rw [append_cons] at h'
    rw [append_assoc]
    exact .cons hsite (ih h')

theorem Becomes.all {before : List Site} {site : Site} {items : List Item}
    (h : Becomes before site items) :
    BecomeAll before [site] items := by
  have hall := BecomeAll.cons h .nil
  rwa [append_nil] at hall

/-! ## What the scope and the progress tell -/

/-- The scope tells which bodies stand around. -/
structure Scope.Stands (scope : Scope) (around : List Around) : Prop where
  inFunction : scope.inFunction = true ↔ Around.function ∈ around
  inLoop : Around.function ∉ around → (scope.inLoop = true ↔ ∃ body ∈ around, body.isLoop = true)
  loopVariables : Around.function ∉ around → ∀ name, name ∈ scope.loopVariables ↔
    Around.loop (some name) ∈ around

theorem Scope.stands_function {scope : Scope} (h : scope.inFunction) (around : List Around) :
    scope.Stands (.function :: around) where
  inFunction := by simp [h]
  inLoop hout := absurd mem_cons_self hout
  loopVariables hout := absurd mem_cons_self hout

theorem Scope.Stands.ofLoop {scope : Scope} {around : List Around} (h : scope.Stands around)
    (target : Option String) : (scope.ofLoop target).Stands (.loop target :: around) := by
  unfold Scope.ofLoop
  split
  · rename_i hin
    have hmem := h.inFunction.mp hin
    refine ⟨by simp [h.inFunction], fun hout => ?_, fun hout => ?_⟩
    · exact absurd (mem_cons_of_mem _ hmem) hout
    · exact absurd (mem_cons_of_mem _ hmem) hout
  · refine ⟨by simp [h.inFunction], fun _ => by simp [Around.isLoop], fun hout name => ?_⟩
    have hvariables := h.loopVariables (fun hmem => hout (mem_cons_of_mem _ hmem)) name
    simp [hvariables, or_comm, eq_comm]

/-- The names remembered are those that the sites before assign outside functions and loops. -/
def Progress.Remembers (p : Progress) (before : List Site) : Prop :=
  p.globals = before.flatMap Site.outerNames

/-- Some sites behind the sites `before` become the given assignments, and their names are
remembered. -/
structure Passes (before sites : List Site) (stores : List Item) (p : Progress) : Prop where
  becomes : BecomeAll before sites stores
  remembers : p.Remembers (before ++ sites)

section Steps

variable {scope : Scope} {around : List Around} {before sites sites' : List Site}
  {items stores stores' : List Item} {p p' : Progress}

theorem Passes.nil (h : p.Remembers before) : Passes before [] [] p :=
  ⟨.nil, by rwa [append_nil]⟩

theorem Passes.append (h : Passes before sites stores p)
    (h' : Passes (before ++ sites) sites' stores' p') :
    Passes before (sites ++ sites') (stores ++ stores') p' :=
  ⟨h.becomes.append h'.becomes, by rw [← append_assoc]; exact h'.remembers⟩

/-- The names that the emission declares global are those that have to be. -/
theorem globalTargets_eq {a : Assignment} {declared : List String} (hscope : scope.Stands around)
    (hp : p.Remembers before) (h : globalTargets scope a p = .ok declared p') :
    declared = (Site.globalNames before around a).map escape ∧
      p'.Remembers (before ++ [.assign a around]) := by
  have hkeeps (hne : around ≠ []) : p.Remembers (before ++ [.assign a around]) := by
    unfold Progress.Remembers at hp ⊢
    simp [hp, Site.outerNames_assign hne]
  unfold globalTargets at h
  split at h
  · rename_i hfunction
    have hin := hscope.inFunction.mp hfunction
    cases h
    rw [Site.globalNames_eq_nil fun name hneeds => hneeds.1 hin]
    exact ⟨rfl, hkeeps (ne_nil_of_mem hin)⟩
  · rename_i hfunction
    have hout : Around.function ∉ around := fun hin => hfunction (hscope.inFunction.mpr hin)
    split at h
    · rename_i hloop
      obtain ⟨body, hbody, hisLoop⟩ := (hscope.inLoop hout).mp hloop
      cases h
      refine ⟨congrArg (map escape) (filter_congr fun name _ => ?_),
        hkeeps (ne_nil_of_mem hbody)⟩
      have hvariable := hscope.loopVariables hout name
      have hneeds : Site.NeedsGlobal before around name ↔ name ∈ p.globals ∧
          name ∉ scope.loopVariables := by
        rw [hp, mem_flatMap, hvariable]
        exact ⟨fun hneeds => hneeds.2.2, fun hneeds => ⟨hout, ⟨body, hbody, hisLoop⟩, hneeds⟩⟩
      simp [hneeds]
    · rename_i hloop
      have hnone : ¬∃ body ∈ around, body.isLoop :=
        fun hbody => hloop ((hscope.inLoop hout).mpr hbody)
      cases h
      rw [Site.globalNames_eq_nil fun name hneeds => hnone hneeds.2.1]
      refine ⟨rfl, ?_⟩
      have hempty : around = [] := by
        refine eq_nil_iff_forall_not_mem.mpr fun body hbody => ?_
        cases body with
        | function => exact hout hbody
        | loop target => exact hnone ⟨_, hbody, rfl⟩
      unfold Progress.Remembers at hp ⊢
      simp [hp, hempty, Site.outerNames]

/-- A target without accesses becomes its name, also where a class has it. -/
theorem targets_of_mapM {targets : List Declaration} {codes : List Code}
    (h : targets.mapM (targetCode scope) = .ok codes) :
    List.Forall₂ (fun d code => d.accesses = [] → code = nameCode d.name) targets codes := by
  induction targets generalizing codes with
  | nil =>
    cases h
    exact .nil
  | cons d targets ih =>
    rw [mapM_cons] at h
    obtain ⟨code, rest, hcode, hrest, rfl⟩ := exists_of_map₂_eq_ok h
    refine .cons (fun hplain => ?_) (ih hrest)
    unfold targetCode at hcode
    rw [hplain, accesses] at hcode
    cases hcode
    unfold Root.ofName
    split <;> rfl

/-- An assignment becomes a store and is remembered. -/
theorem passes_assignment {a : Assignment} (hscope : scope.Stands around) (hp : p.Remembers before)
    (h : assignment scope a p = .ok items p') :
    Passes before [.assign a around] (Item.allStores items) p' := by
  obtain ⟨targets, type, values, declared, hparts, hdeclared, rfl⟩ := exists_of_assignment h
  obtain ⟨rfl, hremembers⟩ := globalTargets_eq hscope hp hdeclared
  obtain ⟨codes, hcodes, hparts⟩ := exists_of_bind_eq_ok hparts
  have htargets : codes = targets := by
    split at hparts
    · obtain ⟨_, _, -, -, heq⟩ := exists_of_map₂_eq_ok hparts
      exact congrArg Prod.fst heq
    · split at hparts
      · cases hparts
      · obtain ⟨_, -, heq⟩ := exists_of_map_eq_ok hparts
        exact congrArg Prod.fst heq
  subst htargets
  have hstores (declared : List String) : Item.allStores (storeItems a declared codes type values) =
      storeItems a declared codes type values := by
    unfold storeItems
    split
    · rfl
    · split <;> rfl
  refine ⟨?_, hremembers⟩
  rw [hstores]
  exact (Becomes.assign (targets_of_mapM hcodes)).all

/-- A class becomes what every class has and its methods. -/
theorem passes_classItems (l : Layout) (hp : p.Remembers before) :
    Passes before [.classDef] (Item.allStores (classItems l)) p := by
  have hstores : Item.allStores (classItems l) = attributeStores := by
    unfold classItems
    split <;> rfl
  rw [hstores]
  refine ⟨Becomes.classDef.all, ?_⟩
  unfold Progress.Remembers at hp ⊢
  simp [hp, Site.outerNames]

/-- A method has the assignments of its body. -/
theorem stores_method (l : Layout) (f : FunctionDef) (signature : Signature) (name : String)
    (formals : List Formal) (body : List Item) :
    Item.allStores
      (.blank :: .function signature (body ++ finalReturn f) :: dispatchItems l f name formals) =
      Item.allStores body := by
  have hreturn : Item.allStores (finalReturn f) = [] := by
    unfold finalReturn
    split
    · split <;> rfl
    · rfl
  have hdispatch : Item.allStores (dispatchItems l f name formals) = [] := by
    unfold dispatchItems
    split <;> rfl
  simp only [Item.allStores, Item.stores, Item.allStores_append, hreturn, hdispatch,
    append_nil, nil_append]

end Steps

mutual

/-- A statement becomes the assignments that its sites become. -/
theorem passes_statement {scope : Scope} {around : List Around} (hscope : scope.Stands around) :
    ∀ {s : Statement} {before : List Site} {p p' : Progress} {items : List Item},
      p.Remembers before →
    statement scope s p = .ok items p' → Passes before (s.sites around) (Item.allStores items) p'
  | .assign _, _, _, _, _, hp, h => passes_assignment hscope hp h
  | .superCall _, _, _, _, _, hp, h | .returns _ _, _, _, _, _, hp, h | .expressions _, _, _, _,
    _, hp, h => by
    obtain ⟨code, -, h⟩ := exists_of_lift_bind h
    cases h
    exact .nil hp
  | .pass, _, _, _, _, hp, h | .breaks, _, _, _, _, hp, h | .continues, _, _, _, _, hp, h => by
    cases h
    exact .nil hp
  | .function ⟨_, _, _, body, _⟩, _, _, _, _, hp, h => by
    obtain ⟨formals, returns, inner, -, -, hinner, rfl⟩ := exists_of_function h
    rw [Item.allStores_singleton]
    exact passes_block (Scope.stands_function rfl around) hp hinner
  | .classDef ⟨_, _, body, _, _⟩, _, _, _, _, hp, h => by
    obtain ⟨l, mid, henter, h⟩ := exists_of_step_bind h
    obtain ⟨more, mid', hmore, h⟩ := exists_of_step_bind h
    cases h
    have hclass := passes_classItems l ((of_enterClass henter).2.2.trans hp)
    rw [Item.allStores_append]
    exact hclass.append (passes_methods hclass.remembers hmore)
  | .conditional ⟨_, body, otherwise, _⟩, _, _, _, _, hp, h => by
    obtain ⟨code, inner, mid, branches, -, hinner, hbranches, rfl⟩ := exists_of_branches h
    have hbody := passes_block hscope hp hinner
    rw [Item.allStores_singleton]
    exact hbody.append (passes_alternative hscope hbody.remembers hbranches)
  | .forLoop target _ body _, _, _, _, _, hp, h => by
    obtain ⟨code, inner, -, hinner, rfl⟩ := exists_of_block h
    rw [Item.allStores_singleton]
    exact passes_block (hscope.ofLoop target) hp hinner
  | .whileLoop _ body _, _, _, _, _, hp, h => by
    obtain ⟨code, inner, -, hinner, rfl⟩ := exists_of_block h
    rw [Item.allStores_singleton]
    exact passes_block (hscope.ofLoop none) hp hinner

theorem passes_block {scope : Scope} {around : List Around} (hscope : scope.Stands around) :
    ∀ {body : List Statement} {before : List Site} {p p' : Progress} {items : List Item},
      p.Remembers before →
    block scope body p = .ok items p' →
      Passes before (Statement.allSites around body) (Item.allStores items) p'
  | [], _, _, _, _, hp, h => by
    cases h
    exact .nil hp
  | first :: rest, _, _, _, _, hp, h => by
    obtain ⟨items, items', mid, hitems, hitems', rfl⟩ := exists_of_block_cons h
    have hfirst := passes_statement hscope hp hitems
    rw [Item.allStores_append]
    exact hfirst.append (passes_block hscope hfirst.remembers hitems')

theorem passes_alternative {scope : Scope} {around : List Around} (hscope : scope.Stands around) :
    ∀ {otherwise : Otherwise} {before : List Site} {p p' : Progress} {alternatives : Alternative},
    p.Remembers before → alternative scope otherwise p = .ok alternatives p' →
    Passes before (otherwise.sites around) alternatives.stores p'
  | .nothing, _, _, _, _, hp, h => by
    cases h
    exact .nil hp
  | .elseIf ⟨_, body, otherwise, _⟩, _, _, _, _, hp, h => by
    obtain ⟨code, inner, mid, branches, -, hinner, hbranches, rfl⟩ := exists_of_branches h
    have hbody := passes_block hscope hp hinner
    exact hbody.append (passes_alternative hscope hbody.remembers hbranches)
  | .block body, _, _, _, _, hp, h => by
    obtain ⟨inner, mid, hinner, h⟩ := exists_of_step_bind h
    cases h
    exact passes_block hscope hp hinner

/-- Assignments in methods become stores, and their names are remembered. -/
theorem passes_methods {scope : Scope} {around : List Around} {l : Layout} :
    ∀ {body : List Statement} {before : List Site} {p p' : Progress} {items : List Item},
      p.Remembers before →
    methods scope l body p = .ok items p' →
    Passes before (Statement.methodSites around body) (Item.allStores items) p'
  | [], _, _, _, _, hp, h => by
    cases h
    exact .nil hp
  | .function ⟨_, _, _, body, _⟩ :: rest, _, _, _, _, hp, h => by
    obtain ⟨formals, returns, inner, mid, more, -, -, hinner, hmore, rfl⟩ := exists_of_method h
    have hbody := passes_block (Scope.stands_function rfl around) hp hinner
    rw [Item.allStores_append, stores_method]
    exact hbody.append (passes_methods hbody.remembers hmore)
  | .assign _ :: rest, _, _, _, _, hp, h | .superCall _ :: rest, _, _, _, _, hp, h
  | .returns _ _ :: rest, _, _, _, _, hp, h | .pass :: rest, _, _, _, _, hp, h
  | .breaks :: rest, _, _, _, _, hp, h | .continues :: rest, _, _, _, _, hp, h
  | .expressions _ :: rest, _, _, _, _, hp, h | .classDef _ :: rest, _, _, _, _, hp, h
  | .conditional _ :: rest, _, _, _, _, hp, h | .forLoop _ _ _ _ :: rest, _, _, _, _, hp, h
  | .whileLoop _ _ _ :: rest, _, _, _, _, hp, h => by
    have hrest : Passes _ (Statement.methodSites around rest) _ _ := passes_methods hp h
    exact hrest

end

/-! ## Programs -/

theorem passes_statements {scope : Scope} (hscope : scope.Stands []) {source : Program}
    {before : List Site} {p p' : Progress} {items : List Item} (hp : p.Remembers before)
    (h : statements scope source p = .ok items p') :
    Passes before (Statement.allSites [] source) (Item.allStores items) p' := by
  induction source generalizing before p items with
  | nil =>
    cases h
    exact .nil hp
  | cons first rest ih =>
    obtain ⟨inner, mid, hinner, h⟩ := exists_of_step_bind h
    obtain ⟨more, mid', hmore, h⟩ := exists_of_step_bind h
    cases h
    have hfirst := passes_statement hscope hp hinner
    have hgap : Item.allStores
        (if first.isDefinition && !rest.isEmpty then [.blank] else []) = [] := by
      split <;> rfl
    rw [Item.allStores_append, Item.allStores_append, hgap, append_nil]
    exact hfirst.append (ih hfirst.remembers hmore)

/-- Nothing is assigned in front of the statements of a program. -/
theorem stores_front (registry : ClassRegistry) (items : List Item) :
    Item.allStores (importItems items ++ shadowedItems registry ++ items) =
      Item.allStores items := by
  have himports : Item.allStores (importItems items) = [] := by
    unfold importItems
    split <;> rfl
  have hmethods (methods : List (String × String)) : Item.allStores
      (methods.map shadowedItem) = [] := by
    induction methods with
    | nil => rfl
    | cons _ _ ih => exact ih
  have hshadowed : Item.allStores (shadowedItems registry) = [] := by
    have hall := hmethods (shadowedMethods registry)
    unfold shadowedItems
    split
    · rfl
    · rw [Item.allStores_append, hall]
      rfl
  rw [Item.allStores_append, Item.allStores_append, himports, hshadowed]
  rfl

/-- The assignments of an emitted program are those of its source, in their order, and two for every
class.  An assignment declares the names of its targets global that it has to: in front of its only
target, or, with several targets, in a line before it.  It has to where it stands in a loop and in
no function, the name was assigned before outside functions and loops, and no `for` around has it as
its variable. -/
theorem program_declares_globals {registry : ClassRegistry} {source : Program} {code : String}
    (h : (program registry source).code = .ok code) :
    ∃ items, (program registry source).items = .ok items ∧ code = Item.programText items ∧
      BecomeAll [] (Statement.allSites [] source) (Item.allStores items) := by
  obtain ⟨items, hitems, rfl⟩ : ∃ items, (program registry source).items = .ok items ∧
      Item.programText items = code := by
    unfold Emitted.code at h
    cases hitems : (program registry source).items with
    | error e => exact nomatch hitems ▸ h
    | ok items => exact ⟨items, rfl, Except.ok.inj (hitems ▸ h)⟩
  obtain ⟨p, hprogram⟩ := programItems_of_program hitems
  obtain ⟨layouts, inner, -, hinner, rfl⟩ := exists_of_programItems hprogram
  have hscope : Scope.Stands { registry, layouts } [] :=
    ⟨by simp, fun _ => by simp, fun _ name => by simp⟩
  have hp : Progress.Remembers {} [] := rfl
  refine ⟨_, hitems, rfl, ?_⟩
  rw [stores_front]
  exact (passes_statements hscope hp hinner).becomes

/-- The variable of a loop and a name that is assigned in the loop alone are not declared. -/
theorem program_declares_globals_nested :
    ∃ text source items, text =
      "a, b = 0, 1\nfor i in xs:\n    a, i, c, b = b, 2, 3, a\n    b = c\n" ∧
      (readProgram text).result = .ok source ∧
        (program (readProgram text).registry source).items = .ok items ∧
      Item.programText items =
        "a, b = 0, 1\n" ++
        "for i in xs\n    global a, b\n    a, i, c, b = b, 2, 3, a\n    global b = c\nend\n" ∧
      BecomeAll [] (Statement.allSites [] source) (Item.allStores items) := by
  obtain ⟨text, htext⟩ : ∃ text, text =
    "a, b = 0, 1\nfor i in xs:\n    a, i, c, b = b, 2, 3, a\n    b = c\n" := ⟨_, rfl⟩
  have hcode : (compiled? text fun _ items => Item.programText items) = some
      ("a, b = 0, 1\n" ++
        "for i in xs\n    global a, b\n    a, i, c, b = b, 2, 3, a\n    global b = c\nend\n") := by
    subst htext
    decide +kernel
  obtain ⟨source, items, hread, hitems, -, hcode⟩ := exists_of_compiled? hcode
  obtain ⟨items', hitems', -, hall⟩ :=
    program_declares_globals (congrArg (Except.map Item.programText) hitems)
  cases hitems.symm.trans hitems'
  exact ⟨text, source, items, htext, hread, hitems, hcode, hall⟩

end Emit

end Offside
