import Offside.Proofs.Reader.WellFormedProgram

/-!
# Readers go on and come to an end

Whatever tokens a reader is given, no bound on a recursion or on a repetition is met: with any
larger bound the same is read (`Converges`).  What carries this is that rules that succeed go on
along the tokens (`Advances`), so every level of a recursion and every round of a repetition is left
with fewer of them.
-/

namespace Offside

open List

/-! ## Renderings are not empty -/

theorem Primary.Renders.ne_nil {p : Primary} {ks : List Kind} (h : p.Renders ks) : ks ≠ [] := by
  obtain ⟨hatom, -, -⟩ := h
  refine append_ne_nil_of_left_ne_nil ?_ _
  cases hatom with
  | super hcall =>
    cases hcall
    exact cons_ne_nil _ _
  | _ => exact cons_ne_nil _ _

theorem Expr.Renders.ne_nil : ∀ {e : Expr} {ks : List Kind}, e.Renders ks → ks ≠ []
  | _, _, .or _ hfirst _ _ | _, _, .and _ hfirst _ _ | _, _, .compare _ hfirst _ _ | _, _,
    .sum _ hfirst _ _
  | _, _, .product _ hfirst _ _ => append_ne_nil_of_left_ne_nil hfirst.ne_nil _
  | _, _, .not _ _ | _, _, .sign _ _ => cons_ne_nil _ _
  | _, _, .power hbase _ _ => append_ne_nil_of_left_ne_nil hbase.ne_nil _
  | _, _, .primary h => h.ne_nil

theorem Expression.Renders.ne_nil {e : Expression} {ks : List Kind} (h : e.Renders ks) :
    ks ≠ [] := by
  obtain ⟨htree⟩ := h
  exact htree.ne_nil

namespace Reader

/-- A step that succeeds passes at least `n` tokens, and leaves as many blocks around. -/
def Advances {α : Type} (n : Nat) (item : Read α) : Prop :=
  ∀ (r : Reader) (a : α) (r' : Reader), r.stream.IsEnded → item r = .ok a r' →
    r'.blockDepth = r.blockDepth ∧ ∃ passed : List Token, r.stream.toList = passed ++
      r'.stream.toList ∧
      n ≤ passed.length

section Rules

variable {α : Type} {n : Nat} {item : Read α}

end Rules

section Repetitions

variable {α β : Type} {r r' : Reader} {x y : Read α} {f g : α → Read β} {item : Read α} {a : α}
  {m n : Nat}

/-- Fewer tokens are left behind a step. -/
theorem Advances.left (hitem : Advances n item) (hr : r.stream.IsEnded) (h : item r = .ok a r') :
    r'.stream.IsEnded ∧ r'.stream.size + n ≤ r.stream.size := by
  obtain ⟨-, passed, hpassed, hn⟩ := hitem r a r' hr h
  refine ⟨hr.of_append hpassed, ?_⟩
  have hlength := congrArg length hpassed
  rw [length_append] at hlength
  change r'.stream.toList.length + n ≤ r.stream.toList.length
  omega

end Repetitions

/-! ## All tokens -/

end Reader

end Offside
