import Offside.Compile
import Offside.Proofs.Emit.ProgramRelocation
import Offside.Proofs.Reader.ProgramRelocation
import Offside.Proofs.Token.ScannerVariation

/-!
# Readings of texts that are read alike

Two texts that are read alike have alike tokens, so the two readings of them differ only in the part
of their locations that may differ, and in the names that were in the tables before
(`readProgram_alike`).  The same then holds of the code that is emitted for them (`compile_alike`).
-/

namespace Offside

/-- The variation that leaves the table of names as it is. -/
def Variation.keepNames (v : Variation) : Variation :=
  { v with
    names := id
    names_intern := NameTable.id_intern }

/-- Alike tokens are read alike: both readings are the same as soon as the part of locations that
may differ is left out, and the names of the first table are put into the second. -/
theorem readTokens_alike {v : Variation} {tokens tokens' : List Token}
    (h : Token.AreAlike v.collation tokens tokens') (names : NameTable) :
    (readTokens tokens names).vary v = (readTokens tokens' (v.names names)).vary v.keepNames := by
  have hfirst := readTokens_vary v tokens names
  have hsecond := readTokens_vary v.keepNames tokens' (v.names names)
  have htokens : tokens.map (Token.relocate v.place) =
      tokens'.map (Token.relocate v.keepNames.place) := h
  rw [← hfirst, ← hsecond, htokens]
  rfl

/-- Texts that are read alike have alike readings. -/
theorem readProgram_alike {v : Variation} {text text' : String}
    (h : Recast v.swaps text.toList text'.toList) (names : NameTable) :
    (readProgram text names).vary v = (readProgram text' (v.names names)).vary v.keepNames := by
  have htokens := tokenize_alike h names
  unfold readProgram
  generalize tokenize text names = scanned at htokens ⊢
  generalize tokenize text' (v.names names) = scanned' at htokens ⊢
  rcases htokens with ⟨htokens, rfl⟩ | @⟨e, e', names, _, he, rfl⟩
  · exact readTokens_alike htokens _
  · exact congrArg (fun e => Reading.mk (.error (.lexical e)) (v.names names) {} []) he

/-! ## Code -/

/-- The code of a program that was read. -/
def Reading.code (reading : Reading) : Except CompileError String :=
  match reading.result with
  | .error e => .error (.read e)
  | .ok program => (Emit.program reading.registry program).code.mapError .emit

theorem compile_eq_code (text : String) : compile text = (readProgram text).code := by
  unfold compile compilation Reading.code
  dsimp only
  cases (readProgram text).result <;> rfl

theorem Reading.code_vary (v : Rereading) (reading : Reading) :
    (reading.vary v).code = reading.code.mapError (CompileError.relocate v.place) := by
  obtain ⟨result, names, registry, events⟩ := reading
  cases result with
  | error e => rfl
  | ok program =>
    change (Emit.program (registry.relocate v.place)
      (program.map (Statement.relocate v.place))).code.mapError CompileError.emit = _
    rw [Emit.code_program_relocate]
    change _ = ((Emit.program registry program).code.mapError CompileError.emit).mapError _
    cases (Emit.program registry program).code <;> rfl

/-- Texts that are read alike have the same code, or errors that differ only in the part of their
locations that may differ. -/
theorem compile_alike {v : Variation} (hnames : v.names {} = {}) {text text' : String}
    (h : Recast v.swaps text.toList text'.toList) :
    (compile text').mapError (CompileError.relocate v.place) =
      (compile text).mapError (CompileError.relocate v.place) := by
  have hreading := readProgram_alike h {}
  rw [hnames] at hreading
  calc (compile text').mapError (CompileError.relocate v.place)
      = ((readProgram text').vary
        v.keepNames).code := by rw [compile_eq_code, Reading.code_vary]; rfl
    _ = ((readProgram text).vary v).code := by rw [hreading]
    _ = (compile text).mapError (CompileError.relocate v.place) := by
      rw [compile_eq_code, Reading.code_vary]

end Offside
