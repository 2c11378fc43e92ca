import Offside.Proofs.DispatchTargets
import Offside.Proofs.LayoutFlattening
import Offside.Proofs.Target.Types

/-!
# Types in emitted programs

A statement that defines no class declares no type.  The markers that it looks up are those of the
classes that the hints of its functions name (`mentions_statement`).  A class looks up the marker of
its superclass and declares its own marker and its record; behind this it looks up its own marker
and those of the classes that the hints of its fields and methods name (`Spells`).
-/

namespace Offside

open Target List

variable {registry : ClassRegistry}

/-! ## Classes that hints name -/

/-- The class that a hint names, itself or as the type of elements. -/
def TypeHint.className? : TypeHint → Option String
  | ⟨name, [], _⟩ => if (TypeName.scalars.lookup name).isSome then none else some name
  | ⟨_, [element], _⟩ => element.className?
  | _ => none

/-- The class that an optional hint names. -/
def hintClasses (hint : Option TypeHint) : List String := (hint.bind TypeHint.className?).toList

/-- The classes that the hints of some parameters name. -/
def parameterClasses (parameters : List Parameter) : List String :=
  parameters.flatMap fun p => hintClasses p.hint

mutual

/-- The classes that the hints of the functions in a statement without classes name. -/
def Statement.signatureClasses : Statement → List String
  | .function ⟨_, parameters, returnHint, body, _⟩ =>
    parameterClasses parameters ++ hintClasses returnHint ++ Statement.allSignatureClasses body
  | .conditional branch => branch.signatureClasses
  | .forLoop _ _ body _ | .whileLoop _ body _ => Statement.allSignatureClasses body
  | .classDef _ | .assign _ | .superCall _ | .returns _ _ | .pass | .breaks | .continues
  | .expressions _ => []

/-- The classes that the hints of the functions in a block name. -/
def Statement.allSignatureClasses : List Statement → List String
  | [] => []
  | statement :: rest => statement.signatureClasses ++ Statement.allSignatureClasses rest

/-- The classes that the hints of the functions behind a condition name. -/
def Conditional.signatureClasses : Conditional → List String
  | ⟨_, body, otherwise, _⟩ => Statement.allSignatureClasses body ++ otherwise.signatureClasses

/-- The classes that the hints of the functions in what is done otherwise name. -/
def Otherwise.signatureClasses : Otherwise → List String
  | .nothing => []
  | .elseIf branch => branch.signatureClasses
  | .block body => Statement.allSignatureClasses body

end

/-- The classes that the hints of a method name.  The hint of its receiver is not looked at, nor is
what an initializer is said to return. -/
def FunctionDef.methodClasses (f : FunctionDef) : List String :=
  parameterClasses f.parameters.tail ++
    (if f.isInitializer then [] else hintClasses f.returnHint) ++
    Statement.allSignatureClasses f.body

/-- The declarations of fields along the superclasses of a class, from the root down. -/
def ClassDef.declaredFields (registry : ClassRegistry) (c : ClassDef) :
    List (String × Option TypeHint) :=
  (registry.ancestors c.name).reverse.flatMap Layout.declaredBy

/-- The classes that the hints of the fields of a class name.  The first declaration of a field
counts. -/
def ClassDef.fieldClasses (registry : ClassRegistry) (c : ClassDef) : List String :=
  ((c.declaredFields registry).map Prod.fst).eraseDups.flatMap fun name =>
    hintClasses (((c.declaredFields registry).find? (·.1 == name)).bind Prod.snd)

/-- The classes that the hints in a class name. -/
def ClassDef.namedClasses (registry : ClassRegistry) (c : ClassDef) : List String :=
  c.fieldClasses registry ++ c.methods.flatMap FunctionDef.methodClasses

/-- The classes that the hints in a statement name. -/
def Statement.namedClasses (registry : ClassRegistry) : Statement → List String
  | .classDef c => c.namedClasses registry
  | s => s.signatureClasses

namespace Emit

/-! ## Looking up markers -/

/-- Some events look up types only.  The markers among these are those of the given classes, which
are registered. -/
structure Mentions (registry : ClassRegistry) (classes : List String)
    (events : List TypeEvent) : Prop where
  uses : ∀ e ∈ events, ∃ name, e = .use name
  markers : ∀ name, .use (markerName name) ∈ events ↔ name ∈ classes.map escape
  registered : ∀ c ∈ classes, registry.contains c = true

section Mentions

variable {classes classes' : List String} {events events' : List TypeEvent}

theorem mentions_nil : Mentions registry [] [] where
  uses := forall_mem_nil _
  markers _ := by simp
  registered := forall_mem_nil _

theorem Mentions.append (h : Mentions registry classes events)
    (h' : Mentions registry classes' events') :
    Mentions registry (classes ++ classes') (events ++ events') where
  uses := forall_mem_append.mpr ⟨h.uses, h'.uses⟩
  markers name := by rw [mem_append, h.markers, h'.markers, map_append, mem_append]
  registered := forall_mem_append.mpr ⟨h.registered, h'.registered⟩

/-- It does not matter in which order and how often things are looked up. -/
theorem Mentions.congr (h : Mentions registry classes events)
    (hclasses : ∀ c, c ∈ classes' ↔ c ∈ classes) (hevents : ∀ e, e ∈ events' ↔ e ∈ events) :
    Mentions registry classes' events' where
  uses e he := h.uses e ((hevents e).mp he)
  markers name := by
    rw [hevents, h.markers, mem_map, mem_map]
    simp only [hclasses]
  registered c hc := h.registered c ((hclasses c).mp hc)

theorem mentions_flatMap {α : Type} {f : α → List String} {g : α → List TypeEvent} {xs : List α}
    (h : ∀ x ∈ xs, Mentions registry (f x) (g x)) :
    Mentions registry (xs.flatMap f) (xs.flatMap g) := by
  induction xs with
  | nil => exact mentions_nil
  | cons x xs ih =>
    obtain ⟨hx, hxs⟩ := forall_mem_cons.mp h
    rw [flatMap_cons, flatMap_cons]
    exact hx.append (ih hxs)

/-- A word that does not start as markers do. -/
theorem markerName_ne {word : String} (h : "Abstract".toList.isPrefixOf word.toList = false)
    (name : String) : markerName name ≠ word := by
  rintro rfl
  rw [markerName, String.toList_append, isPrefixOf_iff_prefix.mpr (prefix_append _ _)] at h
  cases h

theorem markerName_inj {a b : String} : markerName a = markerName b ↔ a = b :=
  String.append_right_inj _

theorem mentions_words {words : List String}
    (h : ∀ word ∈ words, "Abstract".toList.isPrefixOf word.toList = false) :
    Mentions registry [] (words.map .use) where
  uses := by simp
  markers name := by
    have hne : ∀ word ∈ words, word ≠ markerName name := by
      intro word hword
      exact (markerName_ne (h word hword) name).symm
    simpa using fun hmem => hne _ hmem rfl
  registered := forall_mem_nil _

theorem mentions_word {word : String} (h : "Abstract".toList.isPrefixOf word.toList = false) :
    Mentions registry [] [.use word] :=
  mentions_words (forall_mem_singleton.mpr h)

theorem mentions_marker {c : String} (h : registry.contains c) :
    Mentions registry [c] [.use (markerName (escape c))] where
  uses := forall_mem_singleton.mpr ⟨_, rfl⟩
  markers name := by simp [markerName_inj]
  registered := forall_mem_singleton.mpr h

end Mentions

/-! ## Types of hints -/

theorem mentions_scalar {name : String} {type : TypeName}
    (h : TypeName.scalars.lookup name = some type) : Mentions registry [] (typeEvents type) := by
  have hall : ∀ entry ∈ TypeName.scalars, ∀ word ∈ entry.2.names,
      "Abstract".toList.isPrefixOf word.toList = false := by decide
  obtain ⟨before, after, hscalars, -⟩ := lookup_eq_some_iff.mp h
  apply mentions_words
  exact hall (name, type) (by simp [hscalars])

/-- The type of a hint looks up the marker of the class that the hint names. -/
theorem mentions_ofHint : ∀ {hint : TypeHint} {type : TypeName},
    TypeName.ofHint registry hint = .ok type →
      Mentions registry hint.className?.toList (typeEvents type)
  | ⟨name, [], span⟩, type, h => by
    rw [TypeName.ofHint] at h
    rw [TypeHint.className?]
    cases hscalar : TypeName.scalars.lookup name with
    | some scalar =>
      rw [hscalar] at h
      cases h
      exact mentions_scalar hscalar
    | none =>
      rw [hscalar] at h
      by_cases hclass : registry.contains name
      · rw [if_pos hclass] at h
        cases h
        exact mentions_marker hclass
      · rw [if_neg hclass] at h
        cases h
  | ⟨name, [element], span⟩, type, h => by
    rw [TypeName.ofHint] at h
    by_cases hlist : name = "list"
    · rw [if_pos hlist] at h
      obtain ⟨inner, hinner, rfl⟩ := exists_of_map_eq_ok h
      rw [TypeHint.className?]
      have hvector : Mentions registry [] [.use "Vector"] := mentions_word (by decide)
      exact hvector.append (mentions_ofHint hinner)
    · rw [if_neg hlist] at h
      cases h
  | ⟨_, _ :: _ :: _, _⟩, _, h => nomatch h

variable {c : ClassDef} {formals : List Formal} {parameters : List Parameter}

section Statements

variable {scope : Scope}

theorem mentions_hintType {hint : Option TypeHint} {type : Option TypeName}
    (h : hintType scope hint = .ok type) :
    Mentions scope.registry (hintClasses hint) (typeEvents type) := by
  cases hint with
  | none =>
    cases h
    exact mentions_nil
  | some hint =>
    obtain ⟨found, hfound, rfl⟩ := exists_of_map_eq_ok h
    exact mentions_ofHint hfound

theorem mentions_formals (h : parameters.mapM (formal scope) = .ok formals) :
    Mentions scope.registry (parameterClasses parameters) (formals.flatMap Formal.typeEvents) := by
  induction parameters generalizing formals with
  | nil =>
    cases h
    exact mentions_nil
  | cons parameter parameters ih =>
    rw [mapM_cons] at h
    obtain ⟨first, rest, hfirst, hrest, rfl⟩ := exists_of_map₂_eq_ok h
    obtain ⟨type, default, htype, -, rfl⟩ := exists_of_map₂_eq_ok hfirst
    exact (mentions_hintType htype).append (ih hrest)

/-- An assignment declares no type and looks up none. -/
theorem typeEvents_assignment {a : Assignment} {p p' : Progress} {items : List Item}
    (h : assignment scope a p = .ok items p') : Item.allTypeEvents items = [] := by
  obtain ⟨targets, type, values, declared, -, -, rfl⟩ := exists_of_assignment h
  unfold storeItems
  split
  · rfl
  · split <;> rfl

mutual

/-- A statement without classes declares no type, and it looks up the markers of the classes that
the hints of its functions name. -/
theorem mentions_statement {scope : Scope} :
    ∀ {s : Statement} {p p' : Progress} {items : List Item},
    s.isClassFree → statement scope s p = .ok items p' →
    Mentions scope.registry s.signatureClasses (Item.allTypeEvents items)
  | .assign _, _, _, _, _, h => by
    rw [typeEvents_assignment h]
    exact mentions_nil
  | .superCall _, _, _, _, _, h | .returns _ _, _, _, _, _, h | .expressions _, _, _, _, _, h => by
    obtain ⟨code, -, h⟩ := exists_of_lift_bind h
    cases h
    exact mentions_nil
  | .pass, _, _, _, _, h | .breaks, _, _, _, _, h | .continues, _, _, _, _, h => by
    cases h
    exact mentions_nil
  | .function ⟨_, _, _, body, _⟩, _, _, _, hfree, h => by
    obtain ⟨formals, returns, inner, hformals, hreturns, hinner, rfl⟩ := exists_of_function h
    have hhead := (mentions_formals hformals).append (mentions_hintType hreturns)
    have hbody := mentions_block hfree hinner
    rw [Item.allTypeEvents_singleton]
    exact hhead.append hbody
  | .classDef _, _, _, _, hfree, _ => nomatch hfree
  | .conditional ⟨_, body, otherwise, _⟩, _, _, _, hfree, h => by
    obtain ⟨hbody, hotherwise⟩ := Bool.and_eq_true_iff.mp hfree
    obtain ⟨code, inner, mid, branches, -, hinner, hbranches, rfl⟩ := exists_of_branches h
    have hboth := (mentions_block hbody hinner).append (mentions_alternative hotherwise hbranches)
    rw [Item.allTypeEvents_singleton]
    exact hboth
  | .forLoop _ _ body _, _, _, _, hfree, h | .whileLoop _ body _, _, _, _, hfree, h => by
    obtain ⟨code, inner, -, hinner, rfl⟩ := exists_of_block h
    have hbody := mentions_block hfree hinner
    rw [Scope.registry_ofLoop] at hbody
    rw [Item.allTypeEvents_singleton]
    exact hbody

theorem mentions_block {scope : Scope} :
    ∀ {body : List Statement} {p p' : Progress} {items : List Item},
    Statement.areClassFree body → block scope body p = .ok items p' →
    Mentions scope.registry (Statement.allSignatureClasses body) (Item.allTypeEvents items)
  | [], _, _, _, _, h => by
    cases h
    exact mentions_nil
  | first :: rest, _, _, _, hfree, h => by
    obtain ⟨hfirst, hrest⟩ := Bool.and_eq_true_iff.mp hfree
    obtain ⟨items, items', mid, hitems, hitems', rfl⟩ := exists_of_block_cons h
    rw [Item.allTypeEvents_append]
    exact (mentions_statement hfirst hitems).append (mentions_block hrest hitems')

theorem mentions_alternative {scope : Scope} :
    ∀ {otherwise : Otherwise} {p p' : Progress} {alternatives : Alternative},
    otherwise.isClassFree → alternative scope otherwise p = .ok alternatives p' →
    Mentions scope.registry otherwise.signatureClasses alternatives.typeEvents
  | .nothing, _, _, _, _, h => by
    cases h
    exact mentions_nil
  | .elseIf ⟨_, body, otherwise, _⟩, _, _, _, hfree, h => by
    obtain ⟨hbody, hotherwise⟩ := Bool.and_eq_true_iff.mp hfree
    obtain ⟨code, inner, mid, branches, -, hinner, hbranches, rfl⟩ := exists_of_branches h
    exact (mentions_block hbody hinner).append (mentions_alternative hotherwise hbranches)
  | .block body, _, _, _, hfree, h => by
    obtain ⟨inner, mid, hinner, h⟩ := exists_of_step_bind h
    cases h
    exact mentions_block hfree hinner

end

end Statements

/-! ## Classes -/

section Classes

variable {scope : Scope} {l : Layout} {p p' : Progress} {items : List Item}

/-- The parameters of a method look up the marker of the class and those that their hints name. -/
theorem mentions_methodFormals (hclass : scope.registry.contains l.className)
    (h : methodFormals scope l.marker parameters = .ok formals) :
    Mentions scope.registry (l.className :: parameterClasses parameters.tail)
      (.use (markerName l.name) :: formals.flatMap Formal.typeEvents) := by
  have hmarker : Mentions scope.registry [l.className] [.use (markerName l.name)] :=
    mentions_marker hclass
  cases parameters with
  | nil =>
    cases h
    exact hmarker
  | cons receiver rest =>
    obtain ⟨default, others, -, hothers, rfl⟩ := exists_of_map₂_eq_ok h
    have hevents : Formal.typeEvents (.plain (escape receiver.name) (some l.marker) default) =
        [.use (markerName l.name)] := rfl
    apply (hmarker.append (mentions_formals hothers)).congr
    · simp
    · simp [hevents]

theorem typeEvents_finalReturn (f : FunctionDef) : Item.allTypeEvents (finalReturn f) = [] := by
  unfold finalReturn
  split
  · split <;> rfl
  · rfl

theorem typeEvents_dispatchItems (l : Layout) (f : FunctionDef) (name : String)
    (formals : List Formal) :
    Item.allTypeEvents (dispatchItems l f name formals) =
      if f.parameters.isEmpty then [] else .use "Val" :: formals.flatMap Formal.typeEvents := by
  unfold dispatchItems
  split
  · rfl
  · simp

/-- The code of a method, next to the marker of its class. -/
theorem mentions_method (hclass : scope.registry.contains l.className) {f : FunctionDef}
    {returns : Option TypeName} {body : List Item} (name : String)
    (hformals : methodFormals scope l.marker f.parameters = .ok formals)
    (hreturns : (if f.isInitializer then .ok none else hintType scope f.returnHint) = .ok returns)
    (hbody : Mentions scope.registry (Statement.allSignatureClasses f.body)
      (Item.allTypeEvents body)) :
    Mentions scope.registry (l.className :: f.methodClasses)
      (.use (markerName l.name) :: Item.allTypeEvents
      (.blank :: .function ⟨staticName, .tag l.name :: .tag name :: formals, returns⟩
        (body ++ finalReturn f) :: dispatchItems l f name formals)) := by
  have htypes : Mentions scope.registry (if f.isInitializer then [] else hintClasses f.returnHint)
      (typeEvents returns) := by
    split at hreturns
    · cases hreturns
      rw [if_pos ‹_›]
      exact mentions_nil
    · rw [if_neg ‹_›]
      exact mentions_hintType hreturns
  have hval : Mentions scope.registry [] [.use "Val"] := mentions_word (by decide)
  have hhead := hval.append (mentions_methodFormals hclass hformals)
  apply (hhead.append (htypes.append hbody)).congr
  · intro c
    simp [FunctionDef.methodClasses]
  · intro e
    simp only [Item.allTypeEvents, Item.typeEvents, Signature.typeEvents, Item.allTypeEvents_append,
      typeEvents_finalReturn, typeEvents_dispatchItems, flatMap_cons, Formal.typeEvents_tag]
    grind

/-- Methods mention their class and those of their signatures only. -/
theorem mentions_methods (hclass : scope.registry.contains l.className) {body : List Statement}
    (hfree : Statement.areClassFree body) (h : methods scope l body p = .ok items p') :
    Mentions scope.registry
      (l.className :: (body.filterMap Statement.function?).flatMap FunctionDef.methodClasses)
      (.use (markerName l.name) :: Item.allTypeEvents items) := by
  induction body generalizing p items with
  | nil =>
    cases h
    exact mentions_marker hclass
  | cons first rest ih =>
    obtain ⟨hfirst, hrest⟩ := Bool.and_eq_true_iff.mp hfree
    cases first with
    | function f =>
      obtain ⟨formals, returns, inner, mid, more, hformals, hreturns, hinner, hmore, rfl⟩ :=
        exists_of_method h
      rw [Statement.isClassFree_function] at hfirst
      have hregistry : (scope.ofMethod l.className f).registry = scope.registry := rfl
      have hblock := mentions_block hfirst hinner
      rw [hregistry] at hblock
      have hmethod :=
        mentions_method hclass (memberName f.name l.className) hformals hreturns hblock
      apply (hmethod.append (ih hrest hmore)).congr
      · intro c
        have hcons : (Statement.function f :: rest).filterMap Statement.function? =
            f :: rest.filterMap Statement.function? := rfl
        rw [hcons, flatMap_cons]
        grind
      · intro e
        rw [Item.allTypeEvents_append]
        grind
    | _ => exact ih hrest h

/-- The fields of a class look up the markers that the hints of its fields name. -/
theorem mentions_fields {fields : List Field}
    (h : Layout.Flattens registry (c.declaredFields registry) fields) :
    Mentions registry (c.fieldClasses registry) (fields.flatMap fun field =>
      typeEvents field.type) := by
  rw [ClassDef.fieldClasses, ← h.names, flatMap_map]
  apply mentions_flatMap
  intro field hfield
  obtain ⟨hint, hfound, htype⟩ := h.types field hfield
  rw [hfound, Option.bind_some]
  cases hint with
  | none =>
    have hany : field.type = .any := (Except.ok.inj htype).symm
    rw [hany]
    exact mentions_word (by decide)
  | some hint => exact mentions_ofHint htype

theorem typeEvents_readAttribute (l : Layout) :
    (readAttribute l).typeEvents = [.use (markerName l.name), .use "Symbol"] := rfl

theorem typeEvents_writeAttribute (l : Layout) :
    (writeAttribute l).typeEvents = [.use (markerName l.name), .use "Symbol"] := rfl

theorem typeEvents_defaultInitializer (l : Layout) :
    Item.allTypeEvents (defaultInitializer l) =
      [.use "Val", .use "Val", .use (markerName l.name), .use "Val", .use (markerName l.name)] :=
        rfl

/-- What a class looks up behind its types, besides what its methods look up. -/
def classUses (l : Layout) : List TypeEvent :=
  .use (markerName l.name) :: ["Dict", "Symbol", "Any"].map .use ++
    (l.fields.flatMap fun field => typeEvents field.type) ++ (readAttribute l).typeEvents ++
    (writeAttribute l).typeEvents ++
    if l.needsInitializer then Item.allTypeEvents (defaultInitializer l) else []

theorem typeEvents_classItems (l : Layout) :
    Item.allTypeEvents (classItems l) = typeEvents l.superMarker ++
      .abstractType (markerName l.name) ::
      .record l.name (tableField :: l.fields.map Field.name) :: classUses l := by
  have hmarker : typeEvents l.marker = [.use (markerName l.name)] := rfl
  have htext : l.marker.text = markerName l.name := rfl
  have hnames : (l.fields.map fun field => (field.name, field.type)).map Prod.fst =
      l.fields.map Field.name := by simp
  have htypes : ((l.fields.map fun field => (field.name, field.type)).flatMap fun field =>
      typeEvents field.2) = l.fields.flatMap fun field => typeEvents field.type := by
    rw [flatMap_map]
  unfold classItems classUses
  split <;> simp [hmarker, htext, hnames, htypes]

/-- A class looks up its own marker and those that the hints of its fields name. -/
theorem mentions_classUses (hclass : registry.contains c.name) (hname : l.className = c.name)
    (hfields : Layout.Flattens registry (c.declaredFields registry) l.fields) :
    Mentions registry (c.name :: c.fieldClasses registry) (classUses l) := by
  have hspelled : l.name = escape c.name := by rw [Layout.name, hname]
  have hmarker : Mentions registry [c.name] [.use (markerName l.name)] :=
    hspelled ▸ mentions_marker hclass
  have hwords : Mentions registry [] (["Dict", "Symbol", "Any"].map .use) :=
    mentions_words (by decide)
  have hval : Mentions registry [] [.use "Val"] := mentions_word (by decide)
  have hrecord := (hmarker.append hwords).append (mentions_fields hfields)
  unfold classUses
  rw [typeEvents_readAttribute, typeEvents_writeAttribute, typeEvents_defaultInitializer]
  split
  · apply (hrecord.append hval).congr
    · simp
    · grind
  · apply hrecord.congr
    · simp
    · grind

/-- What the code of a statement outside all blocks does with types. -/
inductive Spells (registry : ClassRegistry) : Statement → List TypeEvent → Prop
  | classFree {s : Statement} {events : List TypeEvent} (hfree : s.isClassFree = true)
    (h : Mentions registry s.signatureClasses events) : Spells registry s events
  | classDef {c : ClassDef} {fields : List Field} {events : List TypeEvent}
    (hfields : Layout.Flattens registry (c.declaredFields registry) fields)
    (h : Mentions registry (c.name :: c.namedClasses registry) events) :
    Spells registry (.classDef c)
      (c.superclass.toList.map (fun s => .use (markerName (escape s))) ++
      .abstractType (markerName (escape c.name)) ::
      .record (escape c.name) (tableField :: fields.map Field.name) :: events)

theorem typeEvents_superMarker {layouts : List Layout} (h : Layout.Describes registry layouts c l) :
    typeEvents l.superMarker = c.superclass.toList.map fun s => .use (markerName (escape s)) := by
  cases hsuper : c.superclass with
  | none =>
    rw [h.root hsuper]
    rfl
  | some s =>
    obtain ⟨parent, -, rfl, -, hmarker⟩ := h.inherits s hsuper
    rw [hmarker]
    rfl

/-- A class spells its fields and mentions. -/
theorem spells_classDef (hclass : scope.registry.contains c.name)
    (hdescribes : Layout.Describes scope.registry scope.layouts c l)
    (hfree : Statement.areClassFree c.body) (h : methods scope l c.body p = .ok items p') :
    Spells scope.registry (.classDef c) (Item.allTypeEvents (classItems l ++ items)) := by
  have hname := hdescribes.className
  have hmethods := mentions_methods (hname ▸ hclass) hfree h
  have huses := mentions_classUses hclass hname hdescribes.fields
  have hspelled : l.name = escape c.name := by rw [Layout.name, hname]
  rw [hname, hspelled] at hmethods
  rw [Item.allTypeEvents_append, typeEvents_classItems, typeEvents_superMarker hdescribes,
    append_assoc, cons_append, cons_append, hspelled]
  have hown : .use (markerName (escape c.name)) ∈ classUses l := hspelled ▸ mem_cons_self
  refine .classDef hdescribes.fields ?_
  apply (huses.append hmethods).congr
  · intro d
    grind [ClassDef.namedClasses, ClassDef.methods]
  · intro e
    grind

end Classes

/-! ## Programs -/

section Programs

variable {scope : Scope} {p p' : Progress} {source : Program} {items : List Item}

section

variable (hregistry : scope.registry.Founded)
  (hlayouts : Layout.all scope.registry = .ok scope.layouts)
include hregistry hlayouts

theorem describes_layout (hc : c ∈ scope.registry.latestFirst) {l : Layout} (hl : l ∈ scope.layouts)
    (hname : l.className = c.name) :
    Layout.Describes scope.registry scope.layouts c l := by
  obtain ⟨-, hdescribes⟩ :=
    Layout.describes_foldlM hregistry hregistry (List.Subset.refl _) hlayouts
  obtain ⟨d, hd, hdescribes⟩ := hdescribes l hl
  have hfound := hregistry.get?_eq_some_iff.mpr ⟨hd, hdescribes.className.symm.trans hname⟩
  have hfound' := hregistry.get?_eq_some_iff.mpr ⟨hc, rfl⟩
  obtain rfl := Option.some.inj (hfound.symm.trans hfound')
  exact hdescribes

theorem spells_statement {s : Statement} (houter : s.IsOuter)
    (hclass : ∀ c, s = .classDef c → c ∈ scope.registry.latestFirst)
    (h : statement scope s p = .ok items p') :
    Spells scope.registry s (Item.allTypeEvents items) := by
  cases houter with
  | classFree hfree => exact .classFree hfree (mentions_statement hfree h)
  | classDef hfree =>
    obtain ⟨l, mid, more, hl, hname, hmore, rfl⟩ := exists_of_classDef h
    have hmem := hclass _ rfl
    exact spells_classDef (ClassRegistry.contains_iff.mpr ⟨_, hmem, rfl⟩)
      (describes_layout hregistry hlayouts hmem hl hname) hfree hmore

/-- Statements spell their types one after the other. -/
theorem spells_statements (houter : ∀ s ∈ source, s.IsOuter)
    (hclasses : ∀ c, .classDef c ∈ source → c ∈ scope.registry.latestFirst)
    (h : statements scope source p = .ok items p') :
    ∃ parts, List.Forall₂ (Spells scope.registry) source parts ∧
      Item.allTypeEvents items = parts.flatten := by
  induction source generalizing p items with
  | nil =>
    cases h
    exact ⟨[], .nil, rfl⟩
  | cons first rest ih =>
    obtain ⟨hfirst, hrest⟩ := forall_mem_cons.mp houter
    obtain ⟨inner, mid, hinner, h⟩ := exists_of_step_bind h
    obtain ⟨more, mid', hmore, h⟩ := exists_of_step_bind h
    cases h
    obtain ⟨parts, hparts, hevents⟩ :=
      ih hrest (fun c hc => hclasses c (mem_cons_of_mem _ hc)) hmore
    have hspells := spells_statement hregistry hlayouts hfirst
      (fun c hc => hclasses c (hc ▸ mem_cons_self)) hinner
    have hgap : Item.allTypeEvents
        (if first.isDefinition && !rest.isEmpty then [Item.blank] else []) = [] := by
      split <;> rfl
    refine ⟨Item.allTypeEvents inner :: parts, .cons hspells hparts, ?_⟩
    rw [Item.allTypeEvents_append, Item.allTypeEvents_append, hgap, hevents,
      append_nil, flatten_cons]

end

theorem exists_of_mem_flatten {parts : List (List TypeEvent)}
    (h : List.Forall₂ (Spells registry) source parts) {e : TypeEvent} (he : e ∈ parts.flatten) :
    ∃ s ∈ source, ∃ events, Spells registry s events ∧ e ∈ events := by
  induction h with
  | nil => cases he
  | @cons s events source parts hfirst _ ih =>
    rcases mem_append.mp he with he | he
    · exact ⟨s, mem_cons_self, events, hfirst, he⟩
    · obtain ⟨s', hs', hspells⟩ := ih he
      exact ⟨s', mem_cons_of_mem _ hs', hspells⟩

theorem typeEvents_importItems (items : List Item) :
    Item.allTypeEvents (importItems items) = [] := by
  unfold importItems
  split <;> rfl

/-- What is looked up in front of a program: the type of lists, for the methods of lists that some
class has too. -/
def frontEvents (registry : ClassRegistry) : List TypeEvent :=
  (shadowedMethods registry).flatMap fun _ => [.use "Val", .use "AbstractVector"]

theorem mem_frontEvents {e : TypeEvent} :
    e ∈ frontEvents registry ↔ shadowedMethods registry ≠ [] ∧
      (e = .use "Val" ∨ e = .use "AbstractVector") := by
  rw [frontEvents, mem_flatMap, exists_and_right, ne_eq, eq_nil_iff_forall_not_mem, not_forall_not]
  simp

theorem typeEvents_shadowedItems (registry : ClassRegistry) :
    Item.allTypeEvents (shadowedItems registry) = frontEvents registry := by
  have hitems (methods : List (String × String)) : Item.allTypeEvents (methods.map shadowedItem) =
      methods.flatMap fun _ => [.use "Val", .use "AbstractVector"] := by
    induction methods with
    | nil => rfl
    | cons method methods ih =>
      rw [map_cons, Item.allTypeEvents, ih, flatMap_cons]
      rfl
  unfold shadowedItems frontEvents
  split
  · rename_i hnone
    rw [← hitems, hnone]
  · rw [Item.allTypeEvents_append, hitems]
    exact append_nil _

/-- What the code of a program does with types: first the types of the methods of lists, then those
of its statements, one behind the other. -/
theorem spells_program (h : (program registry source).items = .ok items)
    (hregistry : registry.Founded) (houter : ∀ s ∈ source, s.IsOuter)
    (hclasses : ∀ c, .classDef c ∈ source → c ∈ registry.latestFirst) :
    ∃ parts, List.Forall₂ (Spells registry) source parts ∧
      Item.allTypeEvents items = frontEvents registry ++ parts.flatten := by
  obtain ⟨p, h⟩ := programItems_of_program h
  obtain ⟨layouts, inner, hlayouts, hinner, rfl⟩ := exists_of_programItems h
  obtain ⟨parts, hparts, hevents⟩ := spells_statements hregistry hlayouts houter hclasses hinner
  refine ⟨parts, hparts, ?_⟩
  rw [Item.allTypeEvents_append, Item.allTypeEvents_append, typeEvents_importItems,
    typeEvents_shadowedItems, hevents, nil_append]

end Programs

end Emit

/-- What the code of a text does with types, statement by statement. -/
theorem spells_of_compile {text code : String} (h : compile text = .ok code) :
    ∃ program items parts, (readProgram text).result = .ok program ∧
      (Emit.program (readProgram text).registry program).items = .ok items ∧
      code = Item.programText items ∧
      List.Forall₂ (Emit.Spells (readProgram text).registry) program parts ∧
      Item.allTypeEvents items = Emit.frontEvents (readProgram text).registry ++ parts.flatten := by
  obtain ⟨program, items, hread, hitems, hcode⟩ := compile_eq_ok_iff.mp h
  obtain ⟨hregisters, houter⟩ := registers_of_readProgram hread
  have hall : (readProgram text).registry.classes = program.filterMap Statement.class? :=
    hregisters.classes_eq
  have hclasses : ∀ c, .classDef c ∈ program → c ∈ (readProgram text).registry.latestFirst := by
    intro c hc
    rw [← ClassRegistry.mem_classes, hall, mem_filterMap_class?]
    exact hc
  obtain ⟨parts, hparts, hevents⟩ :=
    Emit.spells_program hitems (hregisters.founded .empty) houter hclasses
  exact ⟨program, items, parts, hread, hitems, hcode, hparts, hevents⟩

end Offside
