import Offside.Proofs.Emit.Refusals
import Offside.Proofs.OutputBlocks

/-!
# Agreement of programs and registries

Reading returns two things that are used side by side: a program, whose statements define classes,
and the registry of the classes that were met.  They agree, whatever the tokens: registering happens
outside all blocks only, and once for each class that is read.  So the emission, which goes through
the program and looks classes up in the registry, finds each of them and emits it once
(`readTokens_agrees`).
-/

namespace Offside

open Emit Target List

/-- An error behind the reading of a text comes from the emission of what was read. -/
theorem exists_of_compile_eq_error {text : String} {e : SemanticError}
    (h : compile text = .error (.emit e)) :
    ∃ program p, (readProgram text).result = .ok program ∧
      programItems (readProgram text).registry program {} = .error e p := by
  unfold compile compilation at h
  cases hread : (readProgram text).result with
  | error e' =>
    simp only [hread] at h
    cases h
  | ok program =>
    simp only [hread] at h
    refine ⟨program, ?_⟩
    unfold Emit.program at h
    cases hitems : programItems (readProgram text).registry program {} with
    | ok items p =>
      simp only [hitems] at h
      cases h
    | error e' p =>
      simp only [hitems] at h
      cases h
      exact ⟨p, rfl, rfl⟩

/-- A text that is read is refused for causes of the emission only. -/
theorem isOfEmission_of_compile {text : String} {e : SemanticError}
    (h : compile text = .error (.emit e)) : e.cause.isOfEmission := by
  obtain ⟨program, p, hread, hitems⟩ := exists_of_compile_eq_error h
  obtain ⟨hregisters, houter⟩ := registers_of_readProgram hread
  exact isOfEmission_of_programItems (hregisters.founded .empty) houter hregisters.classes_eq hitems

/-- The lines of compiled code that open records are those of the registered classes, in order. -/
theorem recordLines_of_compile {text code : String} (h : compile text = .ok code) :
    recordLines (code.toList.splitOn '\n') =
      (readProgram text).registry.classes.map fun c => (classLine c).toList := by
  obtain ⟨program, -, hheads⟩ := headLines_of_compile h
  have hrecords (classes : List ClassDef) : ((classes.map classLine).map String.toList).filter
      (recordOpener.toList.isPrefixOf ·) = classes.map fun c => (classLine c).toList := by
    rw [map_map]
    refine filter_eq_self.mpr fun line hline => ?_
    obtain ⟨c, -, rfl⟩ := mem_map.mp hline
    rw [Function.comp_apply, classLine, Item.recordLine, String.toList_append]
    exact isPrefixOf_iff_prefix.mpr (prefix_append _ _)
  have himports : ∀ used,
      ((importLines used).map String.toList).filter (recordOpener.toList.isPrefixOf ·) = [] := by
    decide
  rw [recordLines_eq, hheads, map_append, filter_append, himports, hrecords, nil_append]

/-- The program and the registry that come of the same tokens agree: the registered classes, in the
order of registration, are the classes that the statements of the program define, and no class is
defined below these statements.  So no text is refused for a class that is missing from the
registry, and the code of a text that is compiled opens one record for each registered class, in
that order. -/
theorem readTokens_agrees :
    (∀ tokens names program, (readTokens tokens names).result = .ok program →
      (readTokens tokens names).registry.classes = program.filterMap Statement.class? ∧
        ∀ s ∈ program, s.IsOuter) ∧
    (∀ text e, compile text = .error (.emit e) →
      ∀ what, e.cause ≠ .unsupportedClassStatement what) ∧
    ∀ text code, compile text = .ok code →
      recordLines (code.toList.splitOn '\n') =
        (readProgram text).registry.classes.map fun c => (classLine c).toList := by
  refine ⟨?_, ?_, ?_⟩
  · intro tokens names program h
    obtain ⟨hregisters, hall⟩ := registers_of_readTokens False.elim h
    exact ⟨hregisters.classes_eq, fun s hs => (hall s hs).1⟩
  · intro text e h what hcause
    have hemission := isOfEmission_of_compile h
    rw [hcause] at hemission
    cases hemission
  · intro text code h
    exact recordLines_of_compile h

/-- Two classes with an embedded expression and a function between them, as tokens and as code. -/
theorem readTokens_agrees_subclass :
    ∃ text tokens names program code, text =
      "class A:\n    def f(s):\n        return f\"\x7bs.x\x7d\"\n" ++
        "def g():\n    pass\nclass end(A):\n    pass\n" ∧
      tokenize text {} = (.ok tokens, names) ∧ (readTokens tokens names).result = .ok program ∧
      (readTokens tokens names).registry.classes = program.filterMap Statement.class? ∧
      compile text = .ok code ∧ recordLines (code.toList.splitOn '\n') =
        ["mutable struct A <: AbstractA".toList, "mutable struct end_ <: Abstractend_".toList] := by
  generalize htext : (_ ++ _ : String) = text
  have hcode : (compile text).toOption.isSome = true := by
    subst htext
    decide +kernel
  have hlines : ((readProgram text).registry.classes.map fun c => (classLine c).toList) =
      ["mutable struct A <: AbstractA".toList, "mutable struct end_ <: Abstractend_".toList] := by
    subst htext
    decide +kernel
  obtain ⟨code, hcode⟩ := Option.isSome_iff_exists.mp hcode
  have hcompile := eq_ok_of_toOption hcode
  obtain ⟨program, items, hread, -⟩ := compile_eq_ok_iff.mp hcompile
  have hrecords := readTokens_agrees.2.2 text code hcompile
  rw [hlines] at hrecords
  unfold readProgram at hread
  cases htokens : tokenize text {} with
  | mk result names =>
    simp only [htokens] at hread
    cases result with
    | error e => cases hread
    | ok tokens =>
      have hagrees := (readTokens_agrees.1 tokens names program hread).1
      exact ⟨text, tokens, names, program, code, rfl, htokens, hread, hagrees, hcompile, hrecords⟩

end Offside
