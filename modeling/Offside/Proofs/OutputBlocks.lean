import Offside.Proofs.DispatchTargets
import Offside.Proofs.Emit.Blocks

/-!
# Blocks of compiled texts

What is compiled was read, so it is well-formed, and the items of well-formed programs are laid out.
Since no line of them is broken, cutting the code at its line ends gives back the lines of the
items.  So the walk over the lines of the code, which only sees characters, finds every block opened
and closed at its indentation (`compile_walks_blocks`).
-/

namespace Offside

open Emit Target List

/-! ## Lines of a text -/

theorem not_mem_chars {line : Line} (h : ∀ depth text, line = .code depth text → isPrintable text) :
    '\n' ∉ line.chars := by
  cases line with
  | blank => exact not_mem_nil
  | code depth text =>
    have hprintable := isPrintable_iff.mp (h depth text rfl)
    intro hmem
    rcases mem_append.mp hmem with hblank | htext
    · cases eq_of_mem_replicate hblank
    · cases hprintable _ htext

/-- A text is cut at its line ends into the lines that it was made of. -/
theorem splitOn_programText {items : List Item}
    (h : ∀ depth text, .code depth text ∈ Item.allLines 0 items → isPrintable text) :
    (Item.programText items).toList.splitOn '\n' =
      (Item.allLines 0 items).map Line.chars ++ [[]] := by
  have hjoin (lines : List Line) : (String.join (lines.map Line.text)).toList =
      ['\n'].intercalate (lines.map Line.chars ++ [[]]) := by
    rw [String.toList_join]
    induction lines with
    | nil => rfl
    | cons line lines ih =>
      obtain ⟨next, rest, hnext⟩ := exists_cons_of_ne_nil
        (append_ne_nil_of_right_ne_nil (lines.map Line.chars) (cons_ne_nil [] []))
      rw [map_cons, flatMap_cons, ih, Line.toList_text, map_cons, cons_append, hnext,
        intercalate_cons_cons]
  unfold Item.programText
  rw [hjoin]
  refine splitOn_intercalate '\n' (fun chars hchars => ?_) (by simp)
  rcases mem_append.mp hchars with hchars | hchars
  · obtain ⟨line, hline, rfl⟩ := mem_map.mp hchars
    refine not_mem_chars fun depth text heq => h depth text ?_
    rwa [← heq]
  · rw [mem_singleton.mp hchars]
    exact not_mem_nil

/-- The text of items that end with a line of text ends with that line. -/
theorem exists_of_tidy {items : List Item} {records : List String}
    (h : Item.AreTidy items records) :
    ∃ front c, (Item.programText items).toList = front ++ [c, '\n'] ∧ c ≠ '\n' := by
  obtain ⟨front, text, hlines, hne⟩ := h.ends 0
  have hprintable : isPrintable text := (h.laid 0).printable 0 text (by simp [hlines])
  obtain ⟨start, c, htext⟩ : ∃ start c, text.toList = start ++ [c] := by
    have hsome : text.toList ≠ [] := by simpa using hne
    exact ⟨text.toList.dropLast, text.toList.getLast hsome, (dropLast_append_getLast hsome).symm⟩
  refine ⟨front.flatMap (·.text.toList) ++ start, c, ?_, ?_⟩
  · unfold Item.programText
    rw [String.toList_join, hlines, map_append, flatMap_append, flatMap_map]
    simp [Line.toList_text, Line.chars, htext]
  · rintro rfl
    have hbreak := isPrintable_iff.mp hprintable '\n' (by simp [htext])
    cases hbreak

/-! ## Compiled texts -/

/-- The items of a compiled text are laid out.  They import the statistics library if a statistics
function is called, and they open the records of the registered classes. -/
theorem tidy_of_compile {text code : String} (h : compile text = .ok code) :
    ∃ program items, (readProgram text).result = .ok program ∧
      (Emit.program (readProgram text).registry program).items = .ok items ∧
      code = Item.programText items ∧
      (program = [] ∧ items = [] ∧ (readProgram text).registry.classes = [] ∨
        Item.AreTidy items (importLines (Statement.anyStatistics program) ++
          (readProgram text).registry.classes.map classLine)) := by
  obtain ⟨program, items, hread, hitems, rfl⟩ := compile_eq_ok_iff.mp h
  obtain ⟨hregisters, -⟩ := registers_of_readProgram hread
  obtain ⟨layouts, inner, p, hlayouts, hinner, rfl, -, hstatistics⟩ :=
    retains_of_readProgram hread hitems
  have htidy :=
    tidy_programItems (wellFormed_of_readProgram hread) hregisters.classes_eq hlayouts hinner
  rw [hstatistics] at htidy
  exact ⟨program, _, hread, hitems, rfl, htidy⟩

/-- The lines of compiled code that import a library or open records. -/
theorem headLines_of_compile {text code : String} (h : compile text = .ok code) :
    ∃ program, (readProgram text).result = .ok program ∧
      headLines (code.toList.splitOn '\n') = (importLines (Statement.anyStatistics program) ++
        (readProgram text).registry.classes.map classLine).map String.toList := by
  obtain ⟨program, items, hread, -, rfl, ⟨rfl, rfl, hnone⟩ | htidy⟩ := tidy_of_compile h
  · refine ⟨[], hread, ?_⟩
    rw [hnone]
    rfl
  · have hlaid := htidy.laid 0
    refine ⟨program, hread, ?_⟩
    rw [splitOn_programText hlaid.printable, ← hlaid.opened, headLines, headLines, map_append,
      filter_append]
    exact append_nil _

/-- The code of every text that is compiled is laid out in blocks.  Walking its lines from depth 0,
with a level behind each line that opens a block, one less before each `end` and the branches of
conditions one level out, never leaves depth 0 downwards and ends there, and every line with text is
indented by four blanks for each level.  The code is empty or ends with one line end.  Its lines are
those that were emitted: no emitted line has a line end or another control character in it. -/
theorem compile_walks_blocks {text code : String} (h : compile text = .ok code) :
    (code.toList.splitOn '\n').foldlM walkLine 0 = some 0 ∧
      (code = "" ∨ ∃ front c, code.toList = front ++ [c, '\n'] ∧ c ≠ '\n') ∧
      ∃ program items, (readProgram text).result = .ok program ∧
        (Emit.program (readProgram text).registry program).items = .ok items ∧
        code.toList.splitOn '\n' = (Item.allLines 0 items).map Line.chars ++ [[]] ∧
        ∀ depth line, .code depth line ∈ Item.allLines 0 items →
          ∀ c ∈ line.toList, isControl c = false := by
  obtain ⟨program, items, hread, hitems, rfl, ⟨-, rfl, -⟩ | htidy⟩ := tidy_of_compile h
  · refine ⟨rfl, .inl rfl, program, [], hread, hitems, rfl, ?_⟩
    intro depth line hline
    cases hline
  · have hlaid := htidy.laid 0
    have hlines := splitOn_programText hlaid.printable
    refine ⟨?_, .inr (exists_of_tidy htidy), program, items, hread, hitems, hlines, ?_⟩
    · rw [hlines, foldlM_append, hlaid.walk]
      rfl
    · intro depth line hline
      exact isPrintable_iff.mp (hlaid.printable depth line hline)

/-- Names and strings that look like the words of blocks, in a condition with two alternatives. -/
theorem compile_walks_blocks_lookalikes :
    ∃ text code, text = "if a:\n    end = \"p\\nend\"\nelif b:\n    while c:\n        pass\n" ++
        "else:\n    def function():\n        return f\"\x7bx\x7d\\nif \"\n" ∧
      code = "if a\n    end_ = \"p\\nend\"\nelseif b\n    while c\n        nothing\n    end\n" ++
        "else\n    function function_()\n        return \"$(x)\\nif \"\n    end\nend\n" ∧
      compile text = .ok code ∧ (code.toList.splitOn '\n').foldlM walkLine 0 = some 0 := by
  generalize htext : (_ ++ _ : String) = text
  generalize hlines : (_ ++ _ : String) = code
  have hcode : (compile text).toOption = some code := by
    subst htext hlines
    decide +kernel
  have hcompile := eq_ok_of_toOption hcode
  exact ⟨_, _, rfl, rfl, hcompile, (compile_walks_blocks hcompile).1⟩

end Offside
