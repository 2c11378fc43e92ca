import Offside.Proofs.Reader.Relocation
import Offside.Reader.Statement

/-!
# Simple statements at other locations

Types, parameters and statements without blocks are read alike at other locations, as expressions
are.
-/

namespace Offside

namespace Reader

variable {v : Rereading}

/-! ## Types and parameters -/

theorem carries_typeHintWithin (depth : Nat) :
    Carries v (TypeHint.relocate v.place) (typeHintWithin depth) := by
  induction depth with
  | zero => exact carries_unexpected _
  | succ depth ih =>
    have hend (start : Location) (name : String) (arguments : List TypeHint) :
        Carries v (TypeHint.relocate v.place) (do return ⟨name, arguments, ← spanFrom start⟩)
          (do return ⟨name, arguments.map (TypeHint.relocate v.place),
            ← spanFrom (v.place start)⟩) := by
      refine (carries_spanFrom start).bind fun span => carries_pure ?_
      rw [TypeHint.relocate, TypeHint.relocateAll_eq_map]
    let behind (start : Location) (name : String) : Read TypeHint := do
      Functor.discard advance
      let arguments ←
        if ← eat .bracketOpen then do
          let arguments ← commaSeparated (typeHintWithin depth)
          Functor.discard (expectDelimiter .bracketClose)
          pure arguments
        else pure []
      return ⟨name, arguments, ← spanFrom start⟩
    have harguments (start : Location) (name : String) :
        Carries v (TypeHint.relocate v.place) (behind start name)
          (behind (v.place start) name) := by
      refine carries_advance.discard.bind fun _ => .eat ?_ (hend start name [])
      exact (carries_commaSeparated ih).bind fun arguments =>
        (carries_expectDelimiter _).discard.bind fun _ => hend start name arguments
    refine carries_location.bind fun start => carries_peek.bind fun kind => ?_
    cases kind with
    | identifier name => exact harguments start name
    | function name => exact harguments start name
    | keyword word =>
      cases word with
      | noneKw => exact harguments start "None"
      | _ => exact (carries_unexpected (f := id) _).bind fun name => harguments start name
    | _ => exact (carries_unexpected (f := id) _).bind fun name => harguments start name

theorem carries_typeHintBehind (d : Delimiter) :
    Carries v (Option.map (TypeHint.relocate v.place)) (typeHintBehind d) := by
  have hhint : Carries v (TypeHint.relocate v.place) typeHint :=
    carries_remaining.bind fun depth => carries_typeHintWithin depth
  exact .eat (hhint.bind fun _ => carries_pure rfl) (carries_pure rfl)

theorem carries_parameter : Carries v (Parameter.relocate v.place) parameter := by
  have hend (start : Location) (name : String) (hint : Option TypeHint)
    (default : Option Expression) :
      Carries v (Parameter.relocate v.place) (do return ⟨name, hint, default, ← spanFrom start⟩)
        (do return ⟨name, hint.map (TypeHint.relocate v.place),
          default.map (Expression.relocate v.place),
          ← spanFrom (v.place start)⟩) :=
    (carries_spanFrom start).bind fun _ => carries_pure rfl
  refine carries_location.bind fun start => (carries_expectName _).bind fun name =>
    (carries_typeHintBehind _).bind fun hint => .eat ?_ (hend start name hint none)
  exact carries_expression.some.bind fun default => hend start name hint default

theorem carries_parameters :
    Carries v (List.map (Parameter.relocate v.place)) parameters :=
  carries_bracketed carries_parameter _ _ _

/-! ## Simple statements -/

theorem carries_returnStatement :
    Carries v (Statement.relocate v.place) returnStatement := by
  have hend (start : Location) (value : Option (List Expression)) :
      Carries v (Statement.relocate v.place) (do return .returns value (← spanFrom start))
        (do
          let span ← spanFrom (v.place start)
          return .returns (value.map (List.map (Expression.relocate v.place))) span) :=
    (carries_spanFrom start).bind fun _ => carries_pure rfl
  refine carries_location.bind fun start => (carries_expectKeyword _).discard.bind fun _ =>
    .test (fun _ _ => rfl) ?_ (hend start none)
  exact carries_expressionList.some.bind fun value => hend start value

theorem carries_declaration : Carries v (Declaration.relocate v.place) declaration :=
  carries_location.bind fun start => (carries_expectName _).bind fun _ =>
    (carries_many (carries_trailerWith carries_expression) fun _ _ => rfl).bind fun _ =>
      (carries_typeHintBehind _).bind fun _ => (carries_spanFrom start).bind fun _ =>
        carries_pure rfl

theorem carries_assignOp (targets : Nat) : Carries v id (assignOp targets) := by
  refine carries_peek.bind fun kind => ?_
  cases kind with
  | delimiter mark =>
    cases mark with
    | assign => exact carries_pure rfl
    | augmented op =>
      exact .ite Iff.rfl (carries_pure rfl) (carries_location.bind fun _ => carries_throw rfl)
    | _ => exact carries_unexpected _
  | _ => exact carries_unexpected _

theorem carries_assignment : Carries v (Assignment.relocate v.place) assignment := by
  refine carries_location.bind fun start =>
    (carries_commaSeparated carries_declaration).bind fun targets => ?_
  rw [List.length_map]
  exact (carries_assignOp _).bind fun _ => carries_advance.discard.bind fun _ =>
    carries_expressionList.bind fun _ => (carries_spanFrom start).bind fun _ => carries_pure rfl

theorem ofExpressions_relocate (place : Location → Location) (list : List Expression) :
    ofExpressions (list.map (Expression.relocate place)) = (ofExpressions list).relocate place := by
  match list with
  | [] => rfl
  | _ :: _ :: _ => simp [ofExpressions, Statement.relocate]
  | [⟨.primary ⟨atom, [], _⟩, _⟩] => cases atom <;> rfl
  | [⟨.primary ⟨atom, _ :: _, _⟩, _⟩] => cases atom <;> rfl
  | [⟨.or .., _⟩] | [⟨.and .., _⟩] | [⟨.not _, _⟩] | [⟨.compare .., _⟩] | [⟨.sum .., _⟩]
  | [⟨.product .., _⟩] | [⟨.sign .., _⟩] | [⟨.power .., _⟩] => rfl

theorem carries_startsAssignment : Carries v id startsAssignment := by
  have hline : Carries v id (do return (← get).stream.lineHasAssignment) :=
    .get fun r => carries_pure (TokenStream.hasAssignment_relocate v.place 0 r.stream.toList)
  refine carries_peek.bind fun kind => ?_
  cases kind with
  | identifier name => exact hline
  | function name => exact hline
  | _ => exact carries_pure rfl

theorem carries_simpleStatement :
    Carries v (Statement.relocate v.place) simpleStatement := by
  have hother : Carries v (Statement.relocate v.place)
      (do
        if ← startsAssignment then return .assign (← assignment)
        else return ofExpressions (← expressionList)) := by
    refine carries_startsAssignment.bind fun _ => .ite Iff.rfl ?_ ?_
    · exact carries_assignment.bind fun _ => carries_pure rfl
    · exact carries_expressionList.bind fun list =>
        carries_pure (ofExpressions_relocate v.place list)
  refine carries_peek.bind fun kind => ?_
  cases kind with
  | keyword word =>
    cases word with
    | returnKw => exact carries_returnStatement
    | passKw | breakKw | continueKw => exact carries_advance.discard.bind fun _ => carries_pure rfl
    | _ => exact hother
  | _ => exact hother

/-! ## Headers -/

theorem carries_superclassName : Carries v id superclassName := by
  refine .eat (.test (fun _ _ => rfl) ?_ ?_) (carries_pure rfl)
  · exact (carries_expectDelimiter _).discard.bind fun _ => carries_pure rfl
  · exact (carries_expectName _).some.bind fun superclass =>
      (carries_expectDelimiter _).discard.bind fun _ => carries_pure Option.map_id_apply

/-- A class is reported, and then it is registered or refused. -/
theorem registerClass_eq (c : ClassDef) (r : Reader) :
    registerClass c r =
      let reported := .registering c.name c.superclass c.attributes.length :: r.reported
      match r.registry.register c with
      | .ok registry => .ok () { r with registry, reported }
      | .error e => .error (.semantic e) { r with reported } := by
  change (match r.registry.register c with
    | .ok registry => modify fun r : Reader => { r with registry }
    | .error e => throw (.semantic e) : Read Unit) _ = _
  cases r.registry.register c <;> rfl

end Reader

end Offside
