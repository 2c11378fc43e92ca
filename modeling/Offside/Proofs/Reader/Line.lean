import Offside.Proofs.Reader.Steps
import Offside.Proofs.Tree.Tokens

/-!
# Assignments on a line

Whether a line holds an assignment is decided by a look at all its tokens.  The tokens of
expressions, types and targets hold no assignment outside brackets and close all brackets they open
(`Inline`), so an assignment is found exactly where a statement has one.
-/

namespace Offside

open List

namespace Reader

/-- Whether tokens of the given kinds hold an assignment outside brackets on their first line. -/
def assigns (depth : Nat) : List Kind → Bool
  | [] => false
  | .newline :: _ | .endOfInput :: _ => false
  | .delimiter mark :: rest =>
    depth == 0 && mark.isAssignment || assigns (mark.depthAfter depth) rest
  | _ :: rest => assigns depth rest

theorem hasAssignment_eq_assigns (depth : Nat) (ts : List Kind) :
    TokenStream.hasAssignment depth (ts.map fun kind => Token.relocate nowhere ⟨kind, {}⟩) =
      assigns depth ts := by
  induction ts generalizing depth with
  | nil => rfl
  | cons kind ts ih =>
    cases kind with
    | newline => rfl
    | endOfInput => rfl
    | delimiter mark =>
      exact congrArg (depth == 0 && mark.isAssignment || ·) (ih (mark.depthAfter depth))
    | _ => exact ih depth

theorem lineHasAssignment_eq_assigns {r : Reader} {ts : List Kind} (h : r.Before ts) :
    r.stream.lineHasAssignment = assigns 0 ts := by
  rw [TokenStream.lineHasAssignment, h.tokens, hasAssignment_eq_assigns]

/-- The tokens can be left out when an assignment is looked for. -/
def Inline (ks : List Kind) : Prop := ∀ depth rest, assigns depth (ks ++ rest) = assigns depth rest

theorem inline_nil : Inline [] := fun _ _ => rfl

theorem Inline.append {ks more : List Kind} (h : Inline ks) (hmore : Inline more) :
    Inline (ks ++ more) := by
  intro depth rest
  rw [append_assoc, h, hmore]

theorem Inline.cons {k : Kind} (hk : k.isInline) {ks : List Kind} (h : Inline ks) :
    Inline (k :: ks) := by
  intro depth rest
  rw [cons_append, ← h depth rest]
  cases k with
  | newline => cases hk
  | endOfInput => cases hk
  | delimiter mark =>
    simp only [Kind.isInline, Bool.and_eq_true, Bool.not_eq_true'] at hk
    simp [assigns, Delimiter.depthAfter, hk]
  | _ => rfl

/-- Brackets around tokens are opened and closed again. -/
theorem Inline.brackets {ks : List Kind} (h : Inline ks) {opening closing : Delimiter}
    (hopening : opening.isOpening) (hclosing : closing.isClosing) :
    Inline (.delimiter opening :: (ks ++ [Kind.delimiter closing])) := by
  intro depth rest
  have hopen : opening.isAssignment = false := by
    cases opening <;> first | rfl | cases hopening
  have hclose : closing.isAssignment = false ∧ closing.isOpening = false := by
    cases closing <;> first | exact ⟨rfl, rfl⟩ | cases hclosing
  rw [cons_append, append_assoc, assigns, h]
  simp [assigns, Delimiter.depthAfter, hopening, hclosing, hopen, hclose]

theorem composed_inline : Composed Inline where
  nil := inline_nil
  cons hk h := .cons hk h
  append h hmore := h.append hmore
  formatted _ _ := fun _ _ => rfl
  brackets hopening hclosing h := h.brackets hopening hclosing

/-- A line of expressions holds no assignment. -/
theorem assigns_expressions (es : List Expression) (rest : List Kind) :
    assigns 0 (Expression.listKinds es ++ .newline :: rest) = false :=
  composed_inline.expressionList es 0 _

/-- An assignment is found behind its targets. -/
theorem assigns_assignment (a : Assignment) (rest : List Kind) : assigns 0 (a.kinds ++ rest) := by
  have htargets : Inline (withCommas (a.targets.map Declaration.kinds)) :=
    composed_inline.withCommas (forall_mem_map.mpr fun d _ => composed_inline.declaration d)
  have hop : a.op.delimiter.isAssignment := by cases a.op <;> rfl
  rw [Assignment.kinds, append_assoc, htargets, cons_append, assigns, hop]
  rfl

end Reader

end Offside
