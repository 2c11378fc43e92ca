/-!
# Functions along lists

A function on trees goes along the lists in a tree by recursion, and does the same to every element.
-/

namespace Offside

variable {α β : Type}

theorem eq_map_of_cons {f : List α → List β} {g : α → β} (hnil : f [] = [])
    (hcons : ∀ x xs, f (x :: xs) = g x :: f xs) (xs : List α) : f xs = xs.map g := by
  induction xs with
  | nil => exact hnil
  | cons x xs ih => rw [hcons, ih, List.map_cons]

theorem eq_flatMap_of_cons {f : List α → List β} {g : α → List β} (hnil : f [] = [])
    (hcons : ∀ x xs, f (x :: xs) = g x ++ f xs) (xs : List α) : f xs = xs.flatMap g := by
  induction xs with
  | nil => exact hnil
  | cons x xs ih => rw [hcons, ih, List.flatMap_cons]

theorem append_of_cons {f : List α → List β} {g : α → List β} (hnil : f [] = [])
    (hcons : ∀ x xs, f (x :: xs) = g x ++ f xs) (xs ys : List α) : f (xs ++ ys) = f xs ++ f ys := by
  simp only [eq_flatMap_of_cons hnil hcons, List.flatMap_append]

/-- A test of every element, made one by one. -/
theorem test_iff_of_cons {test : List α → Bool} {P : α → Prop} (hnil : test [])
    (hcons : ∀ x xs, test (x :: xs) ↔ P x ∧ test xs) {xs : List α} :
    test xs ↔ ∀ x ∈ xs, P x := by
  induction xs with
  | nil => simp [hnil]
  | cons x xs ih => rw [hcons, ih, List.forall_mem_cons]

end Offside
