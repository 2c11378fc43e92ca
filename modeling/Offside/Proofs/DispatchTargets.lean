import Offside.Compile
import Offside.Proofs.Emit.Calls

/-!
# Targets of calls of methods

The tags of a call and those of a definition are made in different ways: a call looks for the class
that has the method along the superclasses, a definition takes the class that it belongs to.  They
agree: the code of a program holds the definition of every method that it calls
(`compile_calls_defined`).
-/

namespace Offside

open Emit Target

/-- What is compiled is read and emitted. -/
theorem compile_eq_ok_iff {text code : String} :
    compile text = .ok code ↔ ∃ program items, (readProgram text).result = .ok program ∧
      (Emit.program (readProgram text).registry program).items = .ok items ∧
      code = Item.programText items := by
  unfold compile compilation
  cases hread : (readProgram text).result with
  | error e => simp [hread]
  | ok program =>
    simp only [hread, Emitted.code, Except.ok.injEq, exists_and_left, exists_eq_left']
    cases hitems : (Emit.program (readProgram text).registry program).items with
    | error e => exact ⟨nofun, nofun⟩
    | ok items =>
      constructor
      · intro h
        exact ⟨items, rfl, (Except.ok.inj h).symm⟩
      · rintro ⟨_, hitems, rfl⟩
        cases hitems
        rfl

/-- What is computed from the program of a text and the items that it is emitted as. -/
def compiled? {β : Type} (text : String) (f : Program → List Item → β) : Option β :=
  (readProgram text).result.toOption.bind fun program =>
    (Emit.program (readProgram text).registry program).items.toOption.map (f program)

theorem exists_of_compiled? {β : Type} {text : String} {f : Program → List Item → β} {b : β}
    (h : compiled? text f = some b) :
    ∃ program items, (readProgram text).result = .ok program ∧
      (Emit.program (readProgram text).registry program).items = .ok items ∧
      compile text = .ok (Item.programText items) ∧ f program items = b := by
  obtain ⟨program, hread, h⟩ := Option.bind_eq_some_iff.mp h
  obtain ⟨items, hitems, h⟩ := Option.map_eq_some_iff.mp h
  have hread := eq_ok_of_toOption hread
  have hitems := eq_ok_of_toOption hitems
  exact ⟨program, items, hread, hitems,
    compile_eq_ok_iff.mpr ⟨program, items, hread, hitems, rfl⟩, h⟩

namespace Emit

theorem programItems_of_program {registry : ClassRegistry} {source : Program} {items : List Item}
    (h : (program registry source).items = .ok items) :
    ∃ p, programItems registry source {} = .ok items p := by
  unfold program at h
  split at h
  · cases h
    exact ⟨_, by assumption⟩
  · cases h

section Programs

variable {registry : ClassRegistry} {source : Program} {items : List Item}
  (h : (program registry source).items = .ok items)

include h

/-- The code of a program holds the forms of all that its classes have. -/
theorem definesStatic_program {c : ClassDef} (hc : .classDef c ∈ source) {tag : String}
    (htag : HasForm registry c tag) : DefinesStatic items (escape c.name) tag := by
  obtain ⟨p, h⟩ := programItems_of_program h
  obtain ⟨layouts, inner, hlayouts, hinner, rfl⟩ := exists_of_programItems h
  obtain ⟨before, after, found, hfound, hsub⟩ := exists_of_mem_statements hinner hc
  have hdefines := definesStatic_classDef (knowsInitializers_all hlayouts) hfound htag
  exact hdefines.mono fun i hi => List.mem_append_right _ (hsub hi)

theorem definesMethod_program {c : ClassDef} (hc : .classDef c ∈ source) {f : FunctionDef}
    (hf : f ∈ c.methods) (hparameters : f.parameters ≠ []) :
    DefinesMethod items (memberName f.name c.name) := by
  obtain ⟨p, h⟩ := programItems_of_program h
  obtain ⟨layouts, inner, hlayouts, hinner, rfl⟩ := exists_of_programItems h
  obtain ⟨before, after, found, hfound, hsub⟩ := exists_of_mem_statements hinner hc
  have hdefines := definesMethod_classDef hfound hf hparameters
  exact hdefines.mono fun i hi => List.mem_append_right _ (hsub hi)

end Programs

/-- The code of a program keeps what is followed in the program. -/
theorem retains_of_readProgram {text : String} {source : Program} {items : List Item}
    (hread : (readProgram text).result = .ok source)
    (hitems : (program (readProgram text).registry source).items = .ok items) :
    ∃ layouts inner p, Layout.all (readProgram text).registry = .ok layouts ∧
      statements { registry := (readProgram text).registry, layouts } source {} = .ok inner p ∧
      items = importItems inner ++ shadowedItems (readProgram text).registry ++ inner ∧
      Retains (readProgram text).registry ((Program.accesses source).map Access.spelled)
        (allCallsOf { registry := (readProgram text).registry, layouts } source)
          (Statement.allWords source)
        (Item.allCodes items) ∧
      (Item.allParts inner).any Code.isStatistic = Statement.anyStatistics source := by
  obtain ⟨p, hitems⟩ := programItems_of_program hitems
  obtain ⟨layouts, inner, hlayouts, hinner, rfl⟩ := exists_of_programItems hitems
  have hstatements := retains_statements rfl (knowsInitializers_all hlayouts)
    (wellFormed_of_readProgram hread).statements (fun _ hc =>
      (mem_latestFirst_iff hread).mpr hc) hinner
  refine ⟨layouts, inner, p, hlayouts, hinner, rfl, ?_, ?_⟩
  · rw [Item.allCodes_append, Item.allCodes_append, allCodes_importItems]
    exact retains_shadowedItems.append hstatements
  · rw [Item.allParts_eq]
    exact hstatements.statistics

end Emit

/-- In the code of a text that is compiled, every call of the method that a class has itself is one
of a method that the code defines for that class.  Every call that is chosen by the class of its
first argument has the tag of an initializer or of a method that some class has, and the code
defines it if the method is not private and some class has it with a parameter. -/
theorem compile_calls_defined {text code : String} (h : compile text = .ok code) :
    ∃ program items, (readProgram text).result = .ok program ∧
      (Emit.program (readProgram text).registry program).items = .ok items ∧
      code = Item.programText items ∧
      (∀ owner method arguments, .staticCall owner method arguments ∈ Item.allParts items →
        DefinesStatic items owner method) ∧
      ∀ tag arguments, .methodCall tag arguments ∈ Item.allParts items →
        (∃ method owner, tag = memberName method owner ∧ (method = initializerName ∨
          ∃ c, .classDef c ∈ program ∧ c.declares method = true)) ∧
        ∀ method, isPrivate method = false → tag = escape method →
          (∃ c, .classDef c ∈ program ∧ ∃ f ∈ c.methods, f.name = method ∧ f.parameters ≠ []) →
          DefinesMethod items tag := by
  obtain ⟨program, items, hread, hitems, rfl⟩ := compile_eq_ok_iff.mp h
  obtain ⟨hregisters, -⟩ := registers_of_readProgram hread
  obtain ⟨_, _, _, -, -, -, hretains, -⟩ := retains_of_readProgram hread hitems
  have hresolved := hretains.resolved (hregisters.isClosed ClassRegistry.isClosed_empty)
  rw [Code.EveryOf, ← Item.allParts_eq] at hresolved
  refine ⟨program, items, hread, hitems, rfl, ?_, ?_⟩
  · intro owner method arguments hcall
    obtain ⟨c, hc, rfl, hform⟩ := hresolved _ hcall
    exact definesStatic_program hitems ((mem_latestFirst_iff hread).mp hc) hform
  · intro tag arguments hcall
    constructor
    · obtain ⟨method, owner, htag, hdeclares⟩ := hresolved _ hcall
      refine ⟨method, owner, htag, hdeclares.imp_right fun hdeclares => ?_⟩
      obtain ⟨c, hc, hmethod⟩ := List.any_eq_true.mp hdeclares
      exact ⟨c, (mem_latestFirst_iff hread).mp hc, hmethod⟩
    · rintro method hprivate rfl ⟨c, hc, f, hf, rfl, hparameters⟩
      rw [← memberName_of_isPrivate_eq_false hprivate c.name]
      exact definesMethod_program hitems hc hf hparameters

/-- Whether an expression is a call of a method that the class spelled `owner` has itself. -/
def isCallOf (owner method : String) : Code → Bool
  | .staticCall o m _ => o == owner && m == method
  | _ => false

/-- The form of a method that calls the method it overrides, and the form that is chosen by its
first argument, reach the form of the superclass. -/
theorem compile_calls_defined_super :
    ∃ text code items, text = "class A:\n    def f(s):\n        pass\n" ++
        "class B(A):\n    def f(s):\n        super().f()\n" ∧ compile text = .ok code ∧
      code = Item.programText items ∧ (Item.allParts items).countP (isCallOf "A" "f") = 2 ∧
      DefinesStatic items "A" "f" := by
  generalize htext : (_ ++ _ : String) = text
  have hcount : ((readProgram text).result.toOption.bind fun program =>
      (Emit.program (readProgram text).registry program).items.toOption.map fun items =>
        (Item.allParts items).countP (isCallOf "A" "f")) = some 2 := by
    subst htext
    decide +kernel
  obtain ⟨program, hread, hcount⟩ := Option.bind_eq_some_iff.mp hcount
  obtain ⟨items, hitems, hcount⟩ := Option.map_eq_some_iff.mp hcount
  have hread := eq_ok_of_toOption hread
  have hitems := eq_ok_of_toOption hitems
  have hcompile := compile_eq_ok_iff.mpr ⟨program, items, hread, hitems, rfl⟩
  obtain ⟨program', items', hread', hitems', -, hstatic, -⟩ := compile_calls_defined hcompile
  cases hread.symm.trans hread'
  cases hitems.symm.trans hitems'
  have hpos : 0 < (Item.allParts items).countP (isCallOf "A" "f") := by rw [hcount]; decide
  obtain ⟨part, hpart, hcall⟩ := List.countP_pos_iff.mp hpos
  refine ⟨text, _, items, rfl, hcompile, rfl, hcount, ?_⟩
  cases part with
  | staticCall owner method arguments =>
    simp only [isCallOf, Bool.and_eq_true, beq_iff_eq] at hcall
    obtain ⟨rfl, rfl⟩ := hcall
    exact hstatic _ _ _ hpart
  | _ => cases hcall

end Offside
