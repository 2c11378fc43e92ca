import Offside.Proofs.Julia.Lexeme
import Offside.Proofs.Tree.WellFormed
import Offside.Target.Name

/-!
# Emitted names

Words of the source stay names in the emitted code, also where an underscore is added to them or
they are joined with the name of a class.
-/

namespace Offside.Julia

open Target Text List

theorem isNamePart_of_isWordPart {c : Char} (h : isWordPart c) : isNamePart c := by
  simp [isNamePart, h]

/-- All characters of a word can go on a name. -/
theorem isNamePart_of_mem_word {text : String} (h : isWord text) :
    ∀ c ∈ text.toList, isNamePart c := by
  unfold isWord at h
  split at h
  · cases h
  · rename_i c cs hcs
    obtain ⟨hc, hall⟩ := Bool.and_eq_true_iff.mp h
    rw [hcs]
    simp only [forall_mem_cons]
    refine ⟨isNamePart_of_isWordPart (isWordPart_of_isWordStart hc), fun d hd => ?_⟩
    exact isNamePart_of_isWordPart (all_eq_true.mp hall d hd)

theorem isName_of_isWord {text : String} (h : isWord text) : isName text := by
  have hparts := isNamePart_of_mem_word h
  unfold isWord at h
  unfold isName
  cases hcs : text.toList with
  | nil =>
    rw [hcs] at h
    cases h
  | cons c cs =>
    rw [hcs] at h hparts
    have hall : cs.all isNamePart :=
      all_eq_true.mpr fun d hd => hparts d (by simp [hd])
    simp [(Bool.and_eq_true_iff.mp h).1, hall]

/-- A name goes on with characters that names go on with. -/
theorem isName_append {text more : String} (h : isName text)
    (hmore : ∀ c ∈ more.toList, isNamePart c) : isName (text ++ more) := by
  unfold isName at h ⊢
  rw [String.toList_append]
  split at h
  · cases h
  · rename_i c cs hcs
    obtain ⟨hc, hall⟩ := Bool.and_eq_true_iff.mp h
    have hboth : (cs ++ more.toList).all isNamePart := by
      rw [all_append, hall, Bool.true_and]
      exact all_eq_true.mpr hmore
    rw [hcs, cons_append]
    simp only [hc, hboth, Bool.and_self]

theorem isName_escape {name : String} (h : isName name) : isName (escape name) := by
  unfold escape
  split
  · exact isName_append h (all_eq_true.mp (by decide))
  · exact h

/-- A word stays a name as a member of a class whose name is a word. -/
theorem isName_memberName {name : String} (h : isWord name) {owner : Option String}
    (howner : ∀ o ∈ owner, isWord o) : isName (memberName name owner) := by
  refine isName_escape ?_
  unfold mangle
  split
  · exact isName_of_isWord h
  · rename_i owner
    split
    · have hbare : ∀ c ∈ (bareOwner owner).toList, isNamePart c := by
        intro c hc
        rw [bareOwner, String.toList_ofList] at hc
        exact isNamePart_of_mem_word (howner owner rfl) c ((dropWhile_suffix _).mem hc)
      exact isName_append (isName_append (by decide) hbare) (isNamePart_of_mem_word h)
    · exact isName_of_isWord h

end Offside.Julia
