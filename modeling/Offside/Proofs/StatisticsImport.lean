import Offside.Proofs.OutputBlocks

/-!
# The import of the statistics library

The library is imported in the first line of the code, and nowhere else, exactly if the program
calls one of its functions by name or through the qualifier of the numerical library.  Where the
name of such a function is written otherwise, it may become a call too, as that of a method does.
Such calls do not count, so the import covers all calls exactly if they only stand beside calls that
count (`compile_imports_statistics_iff`).
-/

namespace Offside

open Emit Target List

/-- The line that imports the statistics library. -/
def statisticsLine : List Char := "using Statistics".toList

/-- Whether a word is the name of a function of the statistics library, but no call of a known
function. -/
def Word.namesStatistic : Word → Bool
  | .function _ => false
  | .other name => statisticsFunctions.contains name

/-- The function that an expression is a call of, by its name.  The functions of the statistics
library are called in the same way as others. -/
def Target.Code.function? : Code → Option String
  | .call (.name function) _ | .statistic function _ => some function
  | _ => none

/-- Whether an expression is a call of a function of the statistics library. -/
def Target.Code.callsStatistics (code : Code) : Bool :=
  code.function?.any (statisticsFunctions.contains ·)

/-- Whether such a call does not count: it is written as one of any other function. -/
def Target.Code.isUncounted (code : Code) : Bool := code.callsStatistics && !code.isStatistic

theorem mem_statisticsFunctions {name function : String}
    (h : callForm name = .statistics function) :
    function ∈ statisticsFunctions := by
  have hform :=
    forall_callForm (p := (·.statistic?.all statisticsFunctions.contains)) (by decide) rfl name
  rw [h] at hform
  exact contains_iff_mem.mp hform

section Compiled

variable {text : String} {program : Program} (hread : (readProgram text).result = .ok program)

include hread

/-- The line stands in the code only as the import in front. -/
theorem anyStatistics_of_mem_lines {code : String} (h : compile text = .ok code)
    (hline : statisticsLine ∈ code.toList.splitOn '\n') : Statement.anyStatistics program := by
  obtain ⟨program', hread', hheads⟩ := headLines_of_compile h
  cases hread.symm.trans hread'
  have hhead : statisticsLine ∈ headLines (code.toList.splitOn '\n') :=
    mem_filter.mpr ⟨mem_map.mpr ⟨_, hline, rfl⟩, rfl⟩
  rw [hheads, map_append, mem_append] at hhead
  rcases hhead with himport | hrecord
  · by_contra hunused
    rw [importLines, if_neg hunused] at himport
    cases himport
  · -- the lines that open records start with another word
    obtain ⟨line, hline, heq⟩ := mem_map.mp hrecord
    obtain ⟨c, -, rfl⟩ := mem_map.mp hline
    rw [classLine, Item.recordLine, String.toList_append] at heq
    cases heq

variable {items : List Item}
  (hitems : (Emit.program (readProgram text).registry program).items = .ok items)

include hitems

/-- The import stands in front of the items. -/
theorem head?_lines_of_anyStatistics (hused : Statement.anyStatistics program) :
    ((Item.programText items).toList.splitOn '\n').head? = some statisticsLine := by
  obtain ⟨program', items', hread', hitems', -, htidy⟩ :=
    tidy_of_compile (compile_eq_ok_iff.mpr ⟨program, items, hread, hitems, rfl⟩)
  cases hread.symm.trans hread'
  cases hitems.symm.trans hitems'
  rcases htidy with ⟨rfl, -⟩ | htidy
  · cases hused
  · obtain ⟨layouts, inner, p, -, -, rfl, -, hstatistics⟩ := retains_of_readProgram hread hitems
    rw [splitOn_programText (htidy.laid 0).printable, importItems, if_pos (hstatistics.trans hused)]
    rfl

/-- The items call a function of the library exactly if the program has a call that counts or they
hold one that does not. -/
theorem any_callsStatistics_iff : (Item.allParts items).any Code.callsStatistics ↔
    Statement.anyStatistics program ∨ (Item.allParts items).any Code.isUncounted := by
  obtain ⟨hregisters, -⟩ := registers_of_readProgram hread
  obtain ⟨layouts, inner, p, -, -, -, hretains, -⟩ := retains_of_readProgram hread hitems
  have hstatistics := hretains.statistics
  have hresolved := hretains.resolved (hregisters.isClosed ClassRegistry.isClosed_empty)
  rw [← Item.allParts_eq] at hstatistics
  have hknown : ∀ part ∈ Item.allParts items, part.isStatistic → part.callsStatistics := by
    intro part hpart hstatistic
    have hpart := hresolved part (Item.allParts_eq _ ▸ hpart)
    cases part with
    | statistic function arguments =>
      obtain ⟨name, hform⟩ := hpart
      exact contains_iff_mem.mpr (mem_statisticsFunctions hform)
    | _ => cases hstatistic
  rw [Statement.anyStatistics, ← hstatistics]
  simp only [any_eq_true]
  constructor
  · rintro ⟨part, hpart, hcalls⟩
    cases hstatistic : part.isStatistic with
    | true => exact .inl ⟨part, hpart, hstatistic⟩
    | false => exact .inr ⟨part, hpart,
      Bool.and_eq_true_iff.mpr ⟨hcalls, (Bool.not_eq_true' _).mpr hstatistic⟩⟩
  · rintro (⟨part, hpart, hstatistic⟩ | ⟨part, hpart, huncounted⟩)
    · exact ⟨part, hpart, hknown part hpart hstatistic⟩
    · exact ⟨part, hpart, (Bool.and_eq_true_iff.mp huncounted).1⟩

/-- Calls that do not count come from other words of the program. -/
theorem any_namesStatistic_of_isUncounted (h : (Item.allParts items).any Code.isUncounted) :
    (Statement.allWords program).any Word.namesStatistic := by
  obtain ⟨layouts, inner, p, -, -, -, hretains, -⟩ := retains_of_readProgram hread hitems
  obtain ⟨part, hpart, huncounted⟩ := any_eq_true.mp h
  obtain ⟨hcalls, hstatistic⟩ := Bool.and_eq_true_iff.mp huncounted
  have hwritten := hretains.written part (Item.allParts_eq _ ▸ hpart)
  unfold Code.callsStatistics Code.function? at hcalls
  split at hcalls
  · exact any_eq_true.mpr ⟨_, hwritten (contains_iff_mem.mp hcalls), hcalls⟩
  · cases hstatistic
  · cases hcalls

end Compiled

/-- The code of every text that is compiled imports the statistics library in its first line, or not
at all.  It does so exactly if the program calls a function of the library by name or through the
qualifier, and then the code has a call of such a function.  If the program does not write the names
of these functions otherwise, then the library is imported exactly if the code has a call of one of
them.  In general all calls in the code are covered by the import exactly if those that do not count
only stand beside others that do. -/
theorem compile_imports_statistics_iff {text code : String} (h : compile text = .ok code) :
    ∃ program items, (readProgram text).result = .ok program ∧
      (Emit.program (readProgram text).registry program).items = .ok items ∧
      code = Item.programText items ∧
      (statisticsLine ∈ code.toList.splitOn '\n' ↔ Statement.anyStatistics program = true) ∧
      ((code.toList.splitOn '\n').head? = some statisticsLine ↔
        Statement.anyStatistics program = true) ∧
      (Statement.anyStatistics program = true →
        (Item.allParts items).any Code.callsStatistics = true) ∧
      ((Statement.allWords program).any Word.namesStatistic = false →
        ((Item.allParts items).any Code.callsStatistics = true ↔
          (code.toList.splitOn '\n').head? = some statisticsLine)) ∧
      (((Item.allParts items).any Code.callsStatistics = true →
          (code.toList.splitOn '\n').head? = some statisticsLine) ↔
        ((Item.allParts items).any Code.isUncounted = true →
          Statement.anyStatistics program = true)) := by
  obtain ⟨program, items, hread, hitems, rfl⟩ := compile_eq_ok_iff.mp h
  have hcalls := any_callsStatistics_iff hread hitems
  have hmem := anyStatistics_of_mem_lines hread h
  have hhead := head?_lines_of_anyStatistics hread hitems
  have hfirst : ((Item.programText items).toList.splitOn '\n').head? = some statisticsLine ↔
      Statement.anyStatistics program = true :=
    ⟨fun hline => hmem (mem_of_mem_head? hline), hhead⟩
  refine ⟨program, items, hread, hitems, rfl,
    ⟨hmem, fun hused => mem_of_mem_head? (hhead hused)⟩, hfirst,
    fun hused => hcalls.mpr (.inl hused), fun hnames => ?_, ?_⟩
  · have hcounted : ¬(Item.allParts items).any Code.isUncounted = true := fun huncounted =>
      Bool.false_ne_true
        (hnames.symm.trans (any_namesStatistic_of_isUncounted hread hitems huncounted))
    rw [hcalls, hfirst, or_iff_left hcounted]
  · rw [hcalls, hfirst]
    exact ⟨fun hcovers huncounted => hcovers (.inr huncounted), fun hcounts hcall =>
      hcall.elim id hcounts⟩

/-- Functions of the library, called through the qualifier in one function and by name in another.
-/
theorem compile_imports_statistics_twice :
    ∃ text code program items, text =
      "def f(a):\n    return np.mean(a)\ndef g(a):\n    return std(a) + median(a)\n" ∧
      compile text = .ok code ∧ (readProgram text).result = .ok program ∧
        code = Item.programText items ∧
      (Statement.allWords program).any Word.namesStatistic = false ∧
      (Item.allParts items).filterMap Code.function? = ["mean", "std", "median"] ∧
      (code.toList.splitOn '\n').head? = some statisticsLine := by
  obtain ⟨text, htext⟩ : ∃ text, text =
    "def f(a):\n    return np.mean(a)\ndef g(a):\n    return std(a) + median(a)\n" := ⟨_, rfl⟩
  have hvalues : (compiled? text fun program items =>
        ((Statement.allWords program).any Word.namesStatistic,
          (Item.allParts items).any Code.callsStatistics,
          (Item.allParts items).filterMap Code.function?)) =
      some (false, true, ["mean", "std", "median"]) := by
    subst htext
    decide +kernel
  obtain ⟨program, items, hread, hitems, hcompile, hvalues⟩ := exists_of_compiled? hvalues
  obtain ⟨hnames, hvalues⟩ := Prod.mk.inj hvalues
  obtain ⟨hcalls, hfunctions⟩ := Prod.mk.inj hvalues
  obtain ⟨program', items', hread', hitems', -, -, -, -, hcovers, -⟩ :=
    compile_imports_statistics_iff hcompile
  cases hread.symm.trans hread'
  cases hitems.symm.trans hitems'
  exact ⟨text, _, program, items, htext, hcompile, hread, rfl, hnames, hfunctions,
    (hcovers hnames).mp hcalls⟩

/-- A method of a value becomes a call of a function of the library, and the library is not
imported. -/
theorem compile_imports_statistics_method :
    ∃ text code program items, text = "x = xs.mean()\n" ∧ compile text = .ok code ∧
      code = "x = mean(xs)\n" ∧
      (readProgram text).result = .ok program ∧
      (Emit.program (readProgram text).registry program).items = .ok items ∧
      (Item.allParts items).filterMap Code.function? = ["mean"] ∧
        statisticsLine ∉ code.toList.splitOn '\n' := by
  obtain ⟨text, htext⟩ : ∃ text, text = "x = xs.mean()\n" := ⟨_, rfl⟩
  have hvalues : (compiled? text fun _ items =>
        (Item.programText items, (Item.allParts items).filterMap Code.function?)) =
      some ("x = mean(xs)\n", ["mean"]) := by
    subst htext
    decide +kernel
  obtain ⟨program, items, hread, hitems, hcompile, hvalues⟩ := exists_of_compiled? hvalues
  obtain ⟨hcode, hcalls⟩ := Prod.mk.inj hvalues
  rw [hcode] at hcompile
  exact ⟨text, _, program, items, htext, hcompile, rfl, hread, hitems, hcalls, by decide⟩

end Offside
