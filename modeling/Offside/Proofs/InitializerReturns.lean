import Offside.Proofs.DispatchTargets
import Offside.Proofs.Target.Paths

/-!
# Returns of initializers

An initializer is called for the instance that it returns.  Its returns without values are emitted
as returns of the receiver, and it gets one more at its end if it does not end with a return
(`returned_block`).  So no path through it goes on behind its end; but a return with a value, such
as that of `None`, stays one, and the instance is not what it returns
(`compile_initializer_returns_iff`).
-/

namespace Offside

open List Target

/-! ## Returns in the source -/

mutual

/-- What the returns in a statement return.  A function that is defined in it has its own. -/
def Statement.returned : Statement → List (Option (List Expression))
  | .returns value _ => [value]
  | .conditional branch => branch.returned
  | .forLoop _ _ body _ | .whileLoop _ body _ => Statement.allReturned body
  | .assign _ | .superCall _ | .pass | .breaks | .continues | .expressions _ | .function
    _ | .classDef _ => []

/-- What the returns in some statements return. -/
def Statement.allReturned : List Statement → List (Option (List Expression))
  | [] => []
  | first :: rest => first.returned ++ Statement.allReturned rest

/-- What the returns behind a condition return. -/
def Conditional.returned : Conditional → List (Option (List Expression))
  | ⟨_, body, otherwise, _⟩ => Statement.allReturned body ++ otherwise.returned

/-- What the returns in an alternative return. -/
def Otherwise.returned : Otherwise → List (Option (List Expression))
  | .nothing => []
  | .elseIf branch => branch.returned
  | .block body => Statement.allReturned body

end

/-! ## Returns in the emitted code -/

namespace Emit

section Lists

variable {ε α β : Type} {f : α → Except ε β}

theorem mapM_append_eq_ok {xs xs' : List α} {ys ys' : List β} (h : xs.mapM f = .ok ys)
    (h' : xs'.mapM f = .ok ys') : (xs ++ xs').mapM f = .ok (ys ++ ys') := by
  rw [mapM_append, h, h']
  rfl

/-- What holds of all results holds of the result for each member. -/
theorem forall_mem_iff_of_mapM_eq_ok {xs : List α} {ys : List β} (h : xs.mapM f = .ok ys)
    (Q : β → Prop) :
    (∀ y ∈ ys, Q y) ↔ ∀ x ∈ xs, ∃ y, f x = .ok y ∧ Q y := by
  induction xs generalizing ys with
  | nil =>
    cases h
    simp
  | cons x xs ih =>
    rw [mapM_cons] at h
    obtain ⟨y, rest, hy, hrest, rfl⟩ := exists_of_map₂_eq_ok h
    rw [forall_mem_cons, forall_mem_cons, ih hrest]
    simp [hy]

end Lists

theorem Scope.ofLoop_of_inFunction {scope : Scope} (h : scope.inFunction) (target : Option String) :
    scope.ofLoop target = scope := by
  rw [Scope.ofLoop, if_pos h]

section Returns

variable {scope : Scope} {p p' : Progress} {items : List Item}

theorem allReturned_of_assignment {a : Assignment} (h : assignment scope a p = .ok items p') :
    Item.allReturned items = [] := by
  obtain ⟨targets, type, values, declared, -, -, rfl⟩ := exists_of_assignment h
  unfold storeItems
  split
  · rfl
  · split <;> rfl

mutual

/-- The returns in the code of a statement of a function are those of the statement, in their order.
-/
theorem returned_statement {scope : Scope} (hscope : scope.inFunction) :
    ∀ {s : Statement} {p p' : Progress} {items : List Item}, s.isClassFree →
    statement scope s p = .ok items p' →
      s.returned.mapM (returnValues scope) = .ok (Item.allReturned items)
  | .assign _, _, _, _, _, h => by
    rw [allReturned_of_assignment h]
    rfl
  | .returns value _, _, _, _, _, h => by
    obtain ⟨codes, hcodes, h⟩ := exists_of_lift_bind h
    cases h
    rw [Statement.returned, mapM_cons, hcodes]
    rfl
  | .pass, _, _, _, _, h | .breaks, _, _, _, _, h | .continues, _, _, _, _, h => by
    cases h
    rfl
  | .superCall _, _, _, _, _, h | .expressions _, _, _, _, _, h => by
    obtain ⟨codes, -, h⟩ := exists_of_lift_bind h
    cases h
    rfl
  | .function ⟨_, _, _, _, _⟩, _, _, _, _, h => by
    obtain ⟨formals, returns, inner, -, -, -, rfl⟩ := exists_of_function h
    rfl
  | .classDef _, _, _, _, hfree, _ => nomatch hfree
  | .conditional ⟨_, body, otherwise, _⟩, _, _, _, hfree, h => by
    obtain ⟨hbody, hotherwise⟩ := Bool.and_eq_true_iff.mp hfree
    obtain ⟨code, inner, mid, branches, -, hinner, hbranches, rfl⟩ := exists_of_branches h
    rw [Item.allReturned, Item.allReturned, append_nil]
    exact mapM_append_eq_ok (returned_block hscope hbody hinner)
      (returned_alternative hscope hotherwise hbranches)
  | .forLoop _ _ body _, _, _, _, hfree, h | .whileLoop _ body _, _, _, _, hfree, h => by
    obtain ⟨code, inner, -, hinner, rfl⟩ := exists_of_block h
    rw [Scope.ofLoop_of_inFunction hscope] at hinner
    rw [Item.allReturned, Item.allReturned, append_nil]
    exact returned_block hscope hfree hinner

theorem returned_block {scope : Scope} (hscope : scope.inFunction) :
    ∀ {body : List Statement} {p p' : Progress} {items : List Item},
    Statement.areClassFree body → block scope body p = .ok items p' →
    (Statement.allReturned body).mapM (returnValues scope) = .ok (Item.allReturned items)
  | [], _, _, _, _, h => by
    cases h
    rfl
  | first :: rest, _, _, _, hfree, h => by
    obtain ⟨hfirst, hrest⟩ := Bool.and_eq_true_iff.mp hfree
    obtain ⟨items, items', mid, hitems, hitems', rfl⟩ := exists_of_block_cons h
    rw [Item.allReturned_append]
    exact mapM_append_eq_ok (returned_statement hscope hfirst hitems)
      (returned_block hscope hrest hitems')

theorem returned_alternative {scope : Scope} (hscope : scope.inFunction) :
    ∀ {otherwise : Otherwise} {p p' : Progress} {alternatives : Alternative},
    otherwise.isClassFree → alternative scope otherwise p = .ok alternatives p' →
    otherwise.returned.mapM (returnValues scope) = .ok alternatives.returned
  | .nothing, _, _, _, _, h => by
    cases h
    rfl
  | .elseIf ⟨_, body, otherwise, _⟩, _, _, _, hfree, h => by
    obtain ⟨hbody, hotherwise⟩ := Bool.and_eq_true_iff.mp hfree
    obtain ⟨code, inner, mid, branches, -, hinner, hbranches, rfl⟩ := exists_of_branches h
    exact mapM_append_eq_ok (returned_block hscope hbody hinner)
      (returned_alternative hscope hotherwise hbranches)
  | .block body, _, _, _, hfree, h => by
    obtain ⟨inner, mid, hinner, h⟩ := exists_of_step_bind h
    cases h
    exact returned_block hscope hfree hinner

end

/-- The code of a block that ends with a return does so as well. -/
theorem getLast?_block {body : List Statement} (hlast : endsWithReturn body)
    (h : block scope body p = .ok items p') :
    ∃ values, items.getLast? = some (.returns values) := by
  induction body generalizing p items with
  | nil => cases hlast
  | cons first rest ih =>
    obtain ⟨inner, mid, hinner, h⟩ := exists_of_step_bind h
    obtain ⟨more, mid', hmore, h⟩ := exists_of_step_bind h
    cases h
    cases rest with
    | nil =>
      cases hmore
      cases first with
      | returns value span =>
        obtain ⟨codes, -, h⟩ := exists_of_lift_bind hinner
        cases h
        exact ⟨codes, rfl⟩
      | _ => cases hlast
    | cons next rest =>
      have hlast' : endsWithReturn (next :: rest) := by
        rwa [endsWithReturn, getLast?_cons_cons] at hlast
      obtain ⟨values, hvalues⟩ := ih hlast' hmore
      exact ⟨values, by rw [getLast?_append, hvalues, Option.some_or]⟩

end Returns

/-! ## Initializers -/

section Initializers

variable {scope : Scope} {p p' : Progress} {items : List Item} {f : FunctionDef} {receiver : String}

variable (hinitializer : f.isInitializer = true) (hreceiver : f.receiver? = some receiver)

include hinitializer hreceiver

theorem finalReturn_of_isInitializer :
    finalReturn f = if endsWithReturn f.body then [] else [.returns [nameCode receiver]] := by
  unfold finalReturn
  rw [hreceiver, hinitializer]
  cases endsWithReturn f.body <;> rfl

/-- A return without values returns the receiver. -/
theorem returnValues_none (className : String) :
    returnValues (scope.ofMethod className f) none = .ok [nameCode receiver] := by
  simp [returnValues, Scope.ofMethod, hinitializer, hreceiver]

/-- The body of an initializer ends with a return. -/
theorem getLast?_initializer {className : String}
    (h : block (scope.ofMethod className f) f.body p = .ok items p') :
    ∃ values, (items ++ finalReturn f).getLast? = some (.returns values) := by
  rw [finalReturn_of_isInitializer hinitializer hreceiver]
  split
  · rename_i hlast
    rw [append_nil]
    exact getLast?_block hlast h
  · exact ⟨[nameCode receiver], by rw [getLast?_append]; rfl⟩

/-- What holds of the receiver holds of all that an initializer returns exactly if it holds of the
values of its returns. -/
theorem forall_returned_iff {className : String} {Q : List Code → Prop} (hQ : Q [nameCode receiver])
    (hfree : Statement.areClassFree f.body)
    (h : block (scope.ofMethod className f) f.body p = .ok items p') :
    (∀ values ∈ Item.allReturned (items ++ finalReturn f), Q values) ↔
      ∀ values, some values ∈ Statement.allReturned f.body →
        ∃ codes, expressions (scope.ofMethod className f) values = .ok codes ∧ Q codes := by
  have hreturned := returned_block (by rfl) hfree h
  have hfinal : ∀ values ∈ Item.allReturned (finalReturn f), Q values := by
    rw [finalReturn_of_isInitializer hinitializer hreceiver]
    split <;> simp [Item.returned, hQ]
  rw [Item.allReturned_append, forall_mem_append, and_iff_left hfinal,
    forall_mem_iff_of_mapM_eq_ok hreturned]
  constructor
  · intro hall values hvalues
    exact hall (some values) hvalues
  · intro hall value hvalue
    cases value with
    | none => exact ⟨_, returnValues_none hinitializer hreceiver className, hQ⟩
    | some values => exact hall values hvalue

end Initializers

end Emit

open Emit

theorem areClassFree_of_mem_methods {c : ClassDef} (h : Statement.areClassFree c.body)
    {f : FunctionDef} (hf : f ∈ c.methods) : Statement.areClassFree f.body := by
  obtain ⟨s, hs, hfunction⟩ := mem_filterMap.mp hf
  cases s with
  | function g =>
    cases hfunction
    rw [← Statement.isClassFree_function]
    exact Statement.areClassFree_iff.mp h _ hs
  | _ => cases hfunction

/-- A return in the body of a function outside all blocks is written as that of the given name. -/
def IsReturnOf (name : String) (values : List Code) : Prop :=
  (Item.returns values).lines 1 = [.code 1 ("return " ++ name)]

instance (name : String) (values : List Code) : Decidable (IsReturnOf name values) :=
  inferInstanceAs (Decidable (_ = _))

theorem isReturnOf_nameCode (name : String) : IsReturnOf (escape name) [nameCode name] := by
  simp [IsReturnOf, Item.lines, Code.texts, nameCode, Code.text, commas]

/-- Every initializer with a receiver is emitted with a return at its end, so no path through it
goes on behind its end, and a path that returns does so by one of its own returns.  All of these are
returns of the receiver exactly if every return of the source that has values is emitted as one. -/
theorem compile_initializer_returns_iff {text code : String} (h : compile text = .ok code) :
    ∃ program items layouts, (readProgram text).result = .ok program ∧
      (Emit.program (readProgram text).registry program).items = .ok items ∧
        code = Item.programText items ∧
      Layout.all (readProgram text).registry = .ok layouts ∧
      ∀ c f receiver, .classDef c ∈ program → f ∈ c.methods → f.isInitializer = true →
        f.receiver? = some receiver →
        ∃ scope formals before inner after body,
          scope = Scope.ofMethod { registry := (readProgram text).registry, layouts } c.name f ∧
          block scope f.body before = .ok inner after ∧ body = inner ++ finalReturn f ∧
          .function ⟨staticName, .tag (escape c.name) :: .tag initializerName :: formals, none⟩
            body ∈ items ∧
          (∃ values ∈ Item.allReturned body, body.getLast? = some (.returns values)) ∧
          (∀ exit, Item.AllEnd body exit → exit ≠ .falls ∧ exit.returned ⊆ Item.allReturned body) ∧
          ((∀ values ∈ Item.allReturned body, IsReturnOf (escape receiver) values) ↔
            ∀ values, some values ∈ Statement.allReturned f.body →
              ∃ codes, expressions scope values = .ok codes ∧
                IsReturnOf (escape receiver) codes) := by
  obtain ⟨program, items, hread, hitems, rfl⟩ := compile_eq_ok_iff.mp h
  obtain ⟨-, houter⟩ := registers_of_readProgram hread
  obtain ⟨p', hprogram⟩ := programItems_of_program hitems
  obtain ⟨layouts, inner, hlayouts, hinner, rfl⟩ := exists_of_programItems hprogram
  refine ⟨program, _, layouts, hread, hitems, rfl, hlayouts, ?_⟩
  intro c f receiver hc hf hinitializer hreceiver
  have hfree : Statement.areClassFree f.body = true := by
    cases houter _ hc with
    | classFree hfree => cases hfree
    | classDef hfree => exact areClassFree_of_mem_methods hfree hf
  obtain ⟨before, after, found, hfound, hsub⟩ := exists_of_mem_statements hinner hc
  obtain ⟨l, mid, more, -, hname, hmore, rfl⟩ := exists_of_classDef hfound
  obtain ⟨formals, returns, body, start, stop, -, hreturns, hbody, hmem, -⟩ :=
    exists_of_mem_methods hmore hf
  have hreturns : returns = none := by
    rw [if_pos hinitializer] at hreturns
    exact (Except.ok.inj hreturns).symm
  have hmethod : memberName f.name l.className = initializerName := by
    rw [eq_of_beq hinitializer]
    exact memberName_initializerName _
  rw [hname] at hbody
  rw [hmethod, Layout.name, hname, hreturns] at hmem
  obtain ⟨values, hvalues⟩ := getLast?_initializer hinitializer hreceiver hbody
  refine ⟨_, formals, start, body, stop, _, rfl, hbody, rfl, ?_, ?_, ?_, ?_⟩
  · exact mem_append_right _ (hsub (mem_append_right _ hmem))
  · exact ⟨values, Item.mem_allReturned_of_getLast? hvalues, hvalues⟩
  · intro exit hexit
    exact ⟨Item.ne_falls_of_allEnd hvalues hexit, Item.returned_subset_of_allEnd hexit⟩
  · exact forall_returned_iff hinitializer hreceiver (isReturnOf_nameCode receiver) hfree hbody

/-- The name and the tags of a form of a method whose body is a return of nothing. -/
def nothingReturned? : Item → Option (String × String × String)
  | .function ⟨name, .tag owner :: .tag method :: _, none⟩ [.returns [.nothing]] =>
    some (name, owner, method)
  | _ => none

/-- An initializer that returns `None` does not return the instance. -/
theorem compile_initializer_nothing :
    ∃ text items formals, text = "class A:\n    def __init__(self):\n        return None\n" ∧
      compile text = .ok (Item.programText items) ∧
      .function ⟨staticName, .tag "A" :: .tag initializerName :: formals, none⟩
        [.returns [.nothing]] ∈ items ∧
      Item.AllEnd [.returns [.nothing]] (.returns [.nothing]) ∧ ¬IsReturnOf "self" [.nothing] := by
  obtain ⟨text, htext⟩ : ∃ text, text =
      "class A:\n    def __init__(self):\n        return None\n" := ⟨_, rfl⟩
  have hvalues : (compiled? text fun _ items => items.findSome? nothingReturned?) =
      some (some (staticName, "A", initializerName)) := by
    subst htext
    decide +kernel
  obtain ⟨program, items, hread, hitems, hcompile, hvalues⟩ := exists_of_compiled? hvalues
  obtain ⟨item, hitem, hfound⟩ := exists_of_findSome?_eq_some hvalues
  unfold nothingReturned? at hfound
  split at hfound
  · cases hfound
    exact ⟨text, items, _, htext, hcompile, hitem,
      .stop [] (.returns _) Exit.noConfusion, by decide⟩
  · cases hfound

/-- An initializer with returns in a condition, in a loop and in a function that is defined in it.
-/
theorem compile_initializer_returns_nested :
    ∃ text code items formals body,
      text = "class A:\n    def __init__(this, n):\n        if n:\n            return\n" ++
        "        def f():\n            return n\n        for i in n:\n            return this\n" ∧
      compile text = .ok code ∧ code = Item.programText items ∧
      .function ⟨staticName, .tag "A" :: .tag initializerName :: formals, none⟩ body ∈ items ∧
      (∃ values ∈ Item.allReturned body, body.getLast? = some (.returns values)) ∧
      (∀ exit, Item.AllEnd body exit → exit ≠ .falls ∧ exit.returned ⊆ Item.allReturned body) ∧
      ∀ values ∈ Item.allReturned body, IsReturnOf "this" values := by
  generalize htext : (_ ++ _ : String) = text
  have hvalues : (compiled? text fun program _ =>
      (Layout.all (readProgram text).registry).toOption.map fun layouts =>
        (program.filterMap Statement.class?).flatMap fun c => c.methods.map fun f =>
          (c.name, f.isInitializer, f.receiver? == some "this",
            (Statement.allReturned f.body).all fun value =>
            value.all fun values =>
              (expressions
                (Scope.ofMethod { registry := (readProgram text).registry, layouts } c.name f)
                values).toOption.any fun codes => IsReturnOf "this" codes)) =
      some (some [("A", true, true, true)]) := by
    subst htext
    decide +kernel
  obtain ⟨program, items, hread, hitems, hcompile, hvalues⟩ := exists_of_compiled? hvalues
  obtain ⟨layouts, hlayouts, hvalues⟩ := Option.map_eq_some_iff.mp hvalues
  obtain ⟨program', items', layouts', hread', hitems', -, hlayouts', hinitializers⟩ :=
    compile_initializer_returns_iff hcompile
  cases hread.symm.trans hread'
  cases hitems.symm.trans hitems'
  cases (eq_ok_of_toOption hlayouts).symm.trans hlayouts'
  obtain ⟨c, hc, hmethod⟩ := mem_flatMap.mp (hvalues ▸ mem_singleton_self _)
  obtain ⟨f, hf, hfound⟩ := mem_map.mp hmethod
  obtain ⟨hname, hinitializer, hreceiver, hall⟩ : c.name = "A" ∧ f.isInitializer = true ∧
      (f.receiver? == some "this") = true ∧ _ = true := by simpa only [Prod.mk.injEq] using hfound
  obtain ⟨scope, formals, before, inner, after, body, rfl, -, -, hmem, hlast, hpaths, hiff⟩ :=
    hinitializers c f "this" (mem_filterMap_class?.mp hc) hf hinitializer (eq_of_beq hreceiver)
  have hescape : escape "A" = "A" ∧ escape "this" = "this" := by decide
  rw [hname, hescape.1] at hmem
  rw [hescape.2] at hiff
  refine ⟨text, _, items, formals, body, rfl, hcompile, rfl, hmem, hlast, hpaths, hiff.mpr ?_⟩
  intro values hvalues
  have hvalue := all_eq_true.mp hall (some values) hvalues
  obtain ⟨codes, hcodes, hreturn⟩ := (Option.any_eq_true _ _).mp hvalue
  exact ⟨codes, eq_ok_of_toOption hcodes, of_decide_eq_true hreturn⟩

end Offside
