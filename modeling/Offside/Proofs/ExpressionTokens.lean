import Offside.Proofs.Reader.Rendered
import Offside.Token.Tokenize

/-!
# Expressions are read from their tokens

Whatever the tokens are and wherever a reader stands in them: if it reads an expression there, then
the tokens that it passes are a rendering of the expression, and the token behind them could not go
on with it (`expression_renders`).  So no token is skipped, none is made up, and every operator is
on its level.
-/

namespace Offside

namespace Reader

/-- An expression that is read at some position of some tokens is read from a rendering of it: these
are the tokens that are passed, all of them before the end of input.  The token behind them is none
that could go on with the expression: no operator, and no opening of an access. -/
theorem expression_renders {tokens : List Token} {n : Nat} {r r' : Reader} {e : Expression}
    (hstream : r.stream = .ofTokensAt tokens n) (h : expression r = .ok e r') :
    ∃ passed : List Token, r.stream.toList = passed ++ r'.stream.toList ∧
      (∀ t ∈ passed, t.kind ≠ .endOfInput) ∧ e.Renders (passed.map Token.kind) ∧
      r'.stream.peek.binding = 0 := by
  have hended : r.stream.IsEnded := hstream ▸ TokenStream.isEnded_ofTokensAt tokens n
  have hgives :=
    (givesExpression_expression (t := ⟨False, .nested, r.stream.weight, false⟩) rfl).gives r
    ⟨hended, False.elim, Nat.le_refl _⟩
  rw [h] at hgives
  obtain ⟨passed, ⟨hpassed, hends, -⟩, he⟩ := hgives.of_ok
  refine ⟨passed, hpassed, fun t ht hend => ?_, he⟩
  have hfalse := hends t ht
  rw [hend] at hfalse
  cases hfalse

/-- A trailing comma, a second colon without a step, a dropped argument of `super` and an expression
in a formatted string, on the right of an assignment.  All tokens are passed but the line break and
the end. -/
theorem expression_renders_nested :
    ∃ text tokens start e rest passed,
      text = "x = super(A, 1).m([1, 2,], f'{a+b}')[1:2:, i] ** -y or not z < 3\n" ∧
      (tokenize text {}).1 = .ok tokens ∧ start.stream = .ofTokensAt tokens 2 ∧
      expression start = .ok e rest ∧ passed.length = tokens.length - 4 ∧
      start.stream.toList = passed ++ rest.stream.toList ∧ e.Renders (passed.map Token.kind) ∧
      rest.stream.peek.binding = 0 := by
  obtain ⟨text, htext⟩ : ∃ text, text =
    "x = super(A, 1).m([1, 2,], f'{a+b}')[1:2:, i] ** -y or not z < 3\n" := ⟨_, rfl⟩
  have hvalues : ((tokenize text {}).1.toOption.bind fun tokens =>
      (EStateM.run' (do discard expression; get)
        ⟨.ofTokensAt tokens 2, {}, {}, 0, []⟩).map fun rest =>
        ((TokenStream.ofTokensAt tokens 2).toList.length, rest.stream.toList.length,
          tokens.length)) =
      some (36, 2, 38) := by
    subst htext
    decide +kernel
  obtain ⟨tokens, htokens, hvalues⟩ := Option.bind_eq_some_iff.mp hvalues
  obtain ⟨rest, hrest, hvalues⟩ := Option.map_eq_some_iff.mp hvalues
  obtain ⟨start, hstart⟩ : ∃ start : Reader, start = ⟨.ofTokensAt tokens 2, {}, {}, 0, []⟩ :=
    ⟨_, rfl⟩
  rw [← hstart] at hrest
  obtain ⟨_, hrun⟩ := exists_of_run'_eq_some hrest
  obtain ⟨_, mid, hread, hget⟩ := exists_of_step_bind hrun
  cases hget
  obtain ⟨e, hread, -⟩ := exists_of_step_map hread
  have hstream : start.stream = .ofTokensAt tokens 2 := by rw [hstart]
  obtain ⟨passed, hpassed, -, he, hbehind⟩ := expression_renders hstream hread
  refine ⟨text, tokens, start, e, rest, passed, htext, eq_ok_of_toOption htokens,
    hstream, hread, ?_,
    hpassed, he, hbehind⟩
  have hlength := congrArg List.length hpassed
  simp only [Prod.mk.injEq] at hvalues
  rw [hstream, List.length_append] at hlength
  omega

end Reader

end Offside
