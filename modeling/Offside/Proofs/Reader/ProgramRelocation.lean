import Offside.Proofs.Reader.SimpleRelocation
import Offside.Reader.Program

/-!
# Programs at other locations

The reading of statements, classes and programs carries over to tokens that stand elsewhere, as that
of expressions does.  The classes met are the same, at other locations, and so is what the reader
reports (`readTokens_vary`).
-/

namespace Offside

open List

namespace Reader

variable {v : Rereading}

/-! ## Statements with blocks -/

theorem carries_registerClass (c : ClassDef) :
    Carries v id (registerClass c) (registerClass (c.relocate v.place)) := by
  intro r
  rw [registerClass_eq, registerClass_eq, ClassDef.name_relocate, ClassDef.superclass_relocate,
    ClassDef.attributes_relocate, length_map]
  have hregister : (r.vary v).registry.register (c.relocate v.place) = _ :=
    r.registry.register_relocate v.place c
  dsimp only
  rw [hregister]
  cases r.registry.register c <;> rfl

section Blocks

variable {inner : Read Statement} (hinner : Carries v (Statement.relocate v.place) inner)

include hinner

theorem carries_blockWith :
    Carries v (map (Statement.relocate v.place)) (blockWith inner) := by
  have hdepth (change : Nat → Nat) :
      Carries v id (modify fun r => { r with blockDepth := change r.blockDepth }) := fun _ => rfl
  exact (carries_expect (fun _ _ => rfl) _).discard.bind fun _ =>
    (carries_expect (fun _ _ => rfl) _).discard.bind fun _ => (hdepth (· + 1)).bind fun _ =>
      (carries_many hinner fun _ _ => rfl).bind fun _ => (hdepth (· - 1)).bind fun _ =>
        (carries_expect (fun _ _ => rfl) _).discard.bind fun _ => carries_pure rfl

theorem carries_functionWith :
    Carries v (FunctionDef.relocate v.place) (functionWith inner) := by
  refine carries_location.bind fun start => (carries_expectKeyword _).discard.bind fun _ =>
    (carries_expectName _).bind fun name => carries_parameters.bind fun parameters =>
      (carries_typeHintBehind _).bind fun returnHint =>
        (carries_expectDelimiter _).discard.bind fun _ =>
        (carries_blockWith hinner).bind fun body => (carries_spanFrom start).bind fun span =>
          carries_pure ?_
  rw [FunctionDef.relocate, Statement.relocateAll_eq_map]
  rfl

theorem carries_classWith :
    Carries v (ClassDef.relocate v.place) (classWith inner) := by
  refine carries_location.bind fun start => (carries_expectKeyword _).discard.bind fun _ =>
    (carries_expectName _).bind fun name => .get fun r => .ite Iff.rfl ?_ ?_
  · exact fun r => rfl
  · refine carries_superclassName.bind fun superclass =>
      (carries_expectDelimiter _).discard.bind fun _ =>
      (carries_spanFrom start).bind fun header => (carries_blockWith hinner).bind fun body => ?_
    rw [id_eq name, checkClassBody_relocate, attributesOfBody_relocate,
      ← Statement.relocateAll_eq_map]
    cases checkClassBody name [] body with
    | error e => exact carries_throw rfl
    | ok _ =>
      exact (carries_intern _).bind fun _ =>
        (carries_registerClass ⟨name, superclass, body, attributesOfBody body,
          header⟩).bind fun _ =>
          carries_pure rfl

/-- A condition is read alike, branch by branch. -/
theorem carries_conditionalWithin (bound : Nat) :
    Carries v (Conditional.relocate v.place) (conditionalWithin inner bound) := by
  induction bound with
  | zero => exact carries_unexpected _
  | succ bound ih =>
    have hend (start : Location) (condition : Expression) (body : List Statement)
      (otherwise : Otherwise) :
        Carries v (Conditional.relocate v.place)
          (do return ⟨condition, body, otherwise, ← spanFrom start⟩)
          (do return ⟨condition.relocate v.place, body.map (Statement.relocate v.place),
            otherwise.relocate v.place, ← spanFrom (v.place start)⟩) := by
      refine (carries_spanFrom start).bind fun span => carries_pure ?_
      rw [Conditional.relocate, Statement.relocateAll_eq_map]
    refine carries_location.bind fun start => carries_expression.bind fun condition =>
      (carries_expectDelimiter _).discard.bind fun _ => (carries_blockWith hinner).bind fun body =>
        carries_peek.bind fun kind => ?_
    cases kind with
    | keyword word =>
      cases word with
      | elifKw =>
        have hbranch : Carries v (Otherwise.relocate v.place)
          (Otherwise.elseIf <$> conditionalWithin inner bound) := ih.map fun _ => rfl
        exact carries_advance.discard.bind fun _ => hbranch.bind fun otherwise =>
          hend start condition body otherwise
      | elseKw =>
        have hblock :
            Carries v (Otherwise.relocate v.place) (Otherwise.block <$> blockWith inner) :=
          (carries_blockWith hinner).map
            fun _ => by rw [Otherwise.relocate, Statement.relocateAll_eq_map]
        exact carries_advance.discard.bind fun _ =>
          (carries_expectDelimiter _).discard.bind fun _ =>
          hblock.bind fun otherwise => hend start condition body otherwise
      | _ => exact hend start condition body .nothing
    | _ => exact hend start condition body .nothing

theorem carries_forWith :
    Carries v (Statement.relocate v.place) (forWith inner) := by
  refine carries_location.bind fun start => (carries_expectKeyword _).discard.bind fun _ =>
    (carries_expectName _).bind fun target => (carries_expectKeyword _).discard.bind fun _ =>
      carries_expressionList.bind fun iterable => (carries_expectDelimiter _).discard.bind fun _ =>
        (carries_blockWith hinner).bind fun body => (carries_spanFrom start).bind fun span =>
          carries_pure ?_
  rw [Statement.relocate, Statement.relocateAll_eq_map]
  rfl

theorem carries_whileWith :
    Carries v (Statement.relocate v.place) (whileWith inner) := by
  refine carries_location.bind fun start => (carries_expectKeyword _).discard.bind fun _ =>
    carries_expression.bind fun condition => (carries_expectDelimiter _).discard.bind fun _ =>
      (carries_blockWith hinner).bind fun body => (carries_spanFrom start).bind fun span =>
        carries_pure ?_
  rw [Statement.relocate, Statement.relocateAll_eq_map]

theorem carries_statementWith :
    Carries v (Statement.relocate v.place) (statementWith inner) := by
  have hsimple : Carries v (Statement.relocate v.place)
      (do
        let simple ← simpleStatement
        Functor.discard (expect Kind.isNewline "end of line")
        return simple) :=
    carries_simpleStatement.bind fun _ =>
      (carries_expect (fun _ _ => rfl) _).discard.bind fun _ => carries_pure rfl
  refine carries_peek.bind fun kind => ?_
  cases kind with
  | keyword word =>
    cases word with
    | defKw => exact (carries_functionWith hinner).bind fun _ => carries_pure rfl
    | classKw => exact (carries_classWith hinner).bind fun _ => carries_pure rfl
    | ifKw =>
      have hbranch : Carries v (Conditional.relocate v.place) (conditionalWith inner) :=
        (carries_expectKeyword _).discard.bind fun _ => carries_remaining.bind fun bound =>
          carries_conditionalWithin hinner bound
      exact hbranch.bind fun _ => carries_pure rfl
    | forKw => exact carries_forWith hinner
    | whileKw => exact carries_whileWith hinner
    | _ => exact hsimple
  | _ => exact hsimple

end Blocks

theorem carries_statementWithin (depth : Nat) :
    Carries v (Statement.relocate v.place) (statementWithin depth) := by
  induction depth with
  | zero => exact carries_unexpected _
  | succ depth ih => exact carries_statementWith ih

theorem carries_program : Carries v (map (Statement.relocate v.place)) program := by
  have hstatement : Carries v (Statement.relocate v.place) statement :=
    carries_remaining.bind fun depth => carries_statementWithin depth
  have hreport (statements : List Statement) : Carries v id
      (modify fun r =>
        { r with reported := .parsed statements.length r.registry.size :: r.reported })
      (modify fun r => { r with
        reported := .parsed (statements.map (Statement.relocate v.place)).length r.registry.size ::
          r.reported }) := by
    intro r
    rw [length_map]
    exact congrArg (fun size => EStateM.Result.ok ()
      { r.vary v with reported := .parsed statements.length size :: r.reported })
      (r.registry.size_relocate v.place)
  exact (carries_many hstatement fun _ _ => rfl).bind fun statements =>
    (hreport statements).bind fun _ => carries_pure rfl

end Reader

/-! ## Readings -/

/-- The second reading: its tree and its classes stand elsewhere, and its table holds other names.
-/
def Reading.vary (v : Rereading) (reading : Reading) : Reading where
  result :=
    (reading.result.map (map (Statement.relocate v.place))).mapError
    (ReadError.relocate v.place)
  names := v.names reading.names
  registry := reading.registry.relocate v.place
  events := reading.events

/-- Tokens at other locations are read alike. -/
theorem readTokens_vary (v : Rereading) (tokens : List Token) (names : NameTable) :
    readTokens (tokens.map (Token.relocate v.place)) (v.names names) =
      (readTokens tokens names).vary v := by
  unfold readTokens
  rw [length_map, Reader.ofTokens_vary v, Reader.carries_program]
  cases Reader.program (.ofTokens tokens names) <;> rfl

end Offside
