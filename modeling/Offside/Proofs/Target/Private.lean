import Offside.Proofs.Emit.Dispatch
import Offside.Proofs.ReservedWords

/-!
# Private names

A private name starts with two underscores; as a member of a class it starts with one and goes on
with the name of the class, without the underscores in front of that.  Where the name of the class
ends is not marked, so two members of different classes may be spelled alike
(`memberName_eq_memberName_iff`).
-/

namespace Offside.Target

open List

/-! ## Underscores in front -/

variable {name owner : String}

theorem exists_of_isPrivate (h : isPrivate name) : ∃ rest, name.toList = '_' :: '_' :: rest := by
  obtain ⟨rest, hrest⟩ := isPrefixOf_iff_prefix.mp (Bool.and_eq_true_iff.mp h).1
  exact ⟨rest, hrest.symm⟩

theorem head?_of_isPrivate (h : isPrivate name) : name.toList.head? = some '_' := by
  obtain ⟨rest, hrest⟩ := exists_of_isPrivate h
  rw [hrest, head?_cons]

theorem head?_bareOwner (owner : String) : (bareOwner owner).toList.head? ≠ some '_' := by
  rw [bareOwner, String.toList_ofList]
  intro h
  have hhead := head?_dropWhile_not (· == '_') owner.toList
  rw [h] at hhead
  simp at hhead

/-- Behind the underscore in front of it, the name of a class starts with another character. -/
theorem underscore_append_ne {rest : String} (howner : bareOwner owner ≠ "") (h : isPrivate name) :
    "_" ++ bareOwner owner ++ rest ≠ name := by
  obtain ⟨back, hback⟩ := exists_of_isPrivate h
  have hsome : (bareOwner owner).toList ≠ [] := by simpa using howner
  obtain ⟨c, cs, hcs⟩ := exists_cons_of_ne_nil hsome
  have hc := head?_bareOwner owner
  rw [hcs, head?_cons] at hc
  intro heq
  have hchars := congrArg String.toList heq
  rw [String.toList_append, String.toList_append, hcs, hback] at hchars
  obtain ⟨-, hchars⟩ := cons.inj hchars
  exact hc (congrArg some (cons.inj hchars).1)

/-- The name of a class does not start as a private name does. -/
theorem bareOwner_append_ne {rest : String} (howner : bareOwner owner ≠ "") (h : isPrivate name) :
    bareOwner owner ++ rest ≠ name := by
  have hsome : (bareOwner owner).toList ≠ [] := by simpa using howner
  obtain ⟨c, cs, hcs⟩ := exists_cons_of_ne_nil hsome
  have hc := head?_bareOwner owner
  rw [hcs] at hc
  rintro rfl
  apply hc
  rw [head?_cons, ← head?_of_isPrivate h, String.toList_append, hcs, cons_append,
    head?_cons]

/-! ## Spelling -/

/-- No reserved word starts with an underscore, so only the name itself is spelled as it is. -/
theorem escape_eq_iff_of_head? {spelled : String} (h : spelled.toList.head? = some '_') :
    escape name = spelled ↔ name = spelled := by
  have hwords : ∀ word ∈ reservedWords,
      word.toList.head? ≠ some '_' ∧ (word ++ "_").toList.head? ≠ some '_' := by decide
  by_cases hname : name ∈ reservedWords
  · obtain ⟨hword, hescaped⟩ := hwords name hname
    rw [escape_of_mem hname]
    refine iff_of_false ?_ ?_
    · rintro rfl
      exact hescaped h
    · rintro rfl
      exact hword h
  · rw [escape_of_notMem hname]

theorem escape_of_head? (h : name.toList.head? = some '_') : escape name = name :=
  (escape_eq_iff_of_head? h).mpr rfl

theorem head?_mangle (h : isPrivate name) (owner : Option String) :
    (mangle name owner).toList.head? = some '_' := by
  unfold mangle
  split
  · exact head?_of_isPrivate h
  · split
    · rw [String.append_assoc, String.toList_append]
      rfl
    · exact head?_of_isPrivate h

/-- A private member is spelled as its mangled name is. -/
theorem memberName_of_isPrivate (h : isPrivate name) (owner : Option String) :
    memberName name owner = mangle name owner :=
  escape_of_head? (head?_mangle h owner)

theorem mangle_of_bareOwner_eq (h : bareOwner owner = "") : mangle name owner = name := by
  simp [mangle, h]

theorem mangle_of_bareOwner_ne (h : isPrivate name) (howner : bareOwner owner ≠ "") :
    mangle name owner = "_" ++ bareOwner owner ++ name := by
  simp [mangle, h, howner]

/-- A private name stays as it is exactly in a class whose name is all underscores. -/
theorem mangle_eq_self_iff (h : isPrivate name) :
    mangle name owner = name ↔ bareOwner owner = "" := by
  by_cases howner : bareOwner owner = ""
  · simp [mangle_of_bareOwner_eq, howner]
  · rw [mangle_of_bareOwner_ne h howner]
    exact iff_of_false (underscore_append_ne howner h) howner

/-! ## Members that are spelled alike -/

/-- Two private names are mangled alike if their parts join alike. -/
theorem mangle_eq_mangle_iff {other owner' : String} (h : isPrivate name)
    (hother : isPrivate other) :
    mangle other owner' = mangle name owner ↔
      bareOwner owner' ++ other = bareOwner owner ++ name := by
  by_cases howner : bareOwner owner = ""
  · by_cases howner' : bareOwner owner' = ""
    · rw [mangle_of_bareOwner_eq howner, mangle_of_bareOwner_eq howner', howner, howner']
      simp
    · rw [mangle_of_bareOwner_eq howner, mangle_of_bareOwner_ne hother howner', howner,
        String.empty_append]
      exact iff_of_false (underscore_append_ne howner' h) (bareOwner_append_ne howner' h)
  · by_cases howner' : bareOwner owner' = ""
    · rw [mangle_of_bareOwner_ne h howner, mangle_of_bareOwner_eq howner', howner',
        String.empty_append]
      exact iff_of_false (underscore_append_ne howner hother).symm
        (bareOwner_append_ne howner hother).symm
    · rw [mangle_of_bareOwner_ne h howner, mangle_of_bareOwner_ne hother howner',
        String.append_assoc,
        String.append_assoc, String.append_right_inj]

/-- A private member is spelled as another member is exactly in two cases: the other name is
private, and the names behind those of their classes make the same text, or it is not private and
has the spelling itself. -/
theorem memberName_eq_memberName_iff {other owner' : String} (h : isPrivate name) :
    memberName other owner' = memberName name owner ↔
      isPrivate other ∧ bareOwner owner' ++ other = bareOwner owner ++ name ∨
        isPrivate other = false ∧ bareOwner owner ≠ "" ∧
          other = "_" ++ bareOwner owner ++ name := by
  rw [memberName_of_isPrivate h]
  by_cases hother : isPrivate other
  · rw [memberName_of_isPrivate hother, mangle_eq_mangle_iff h hother]
    simp [hother]
  · have hpublic : isPrivate other = false := Bool.eq_false_iff.mpr hother
    rw [Emit.memberName_of_isPrivate_eq_false hpublic, escape_eq_iff_of_head? (head?_mangle h _)]
    by_cases howner : bareOwner owner = ""
    · rw [mangle_of_bareOwner_eq howner]
      refine iff_of_false ?_ (by simp [hpublic, howner])
      rintro rfl
      exact hother h
    · rw [mangle_of_bareOwner_ne h howner]
      simp [hpublic, howner]

end Offside.Target
