import Offside.Proofs.DispatchTargets
import Offside.Proofs.PrivateFields

/-!
# Names of accessed attributes

An attribute that is accessed in the definition of a class is spelled as a member of this class,
wherever the access stands in the bodies of its methods, and outside all classes it keeps its name.
But the default values of the parameters of a method belong to the scope around the class, so a
private attribute that is accessed there keeps its name as well, and this is not the name of its
field (`compile_private_accesses_iff`).
-/

namespace Offside

open List Target

/-- A private attribute that is accessed in a class is spelled as a member of the class, but not in
the default values of parameters of methods. -/
theorem Access.spelled_eq_mangle_iff {a : Access} (h : isPrivate a.name) {owner : String}
    (howner : a.owner = some owner) :
    a.spelled = mangle a.name owner ↔ a.isDefault = false ∨ bareOwner owner = "" := by
  rw [Access.spelled, memberName_of_isPrivate h, howner]
  cases a.isDefault with
  | false => simp
  | true =>
    rw [if_pos rfl, or_iff_right Bool.noConfusion, ← mangle_eq_self_iff h]
    exact eq_comm

theorem Access.spelled_of_owner_eq_none {a : Access} (h : isPrivate a.name)
    (howner : a.owner = none) :
    a.spelled = a.name := by
  rw [Access.spelled, memberName_of_isPrivate h, howner, ite_self]
  rfl

/-- The attributes in the code of a program are those that the program accesses, in their order.  A
private one that is accessed outside all classes keeps its name.  One that is accessed in the
definition of a class is spelled as a member of the class, as the field is that the class has for it
if it declares it, exactly if it does not stand in the default value of a parameter of a method,
unless the name of the class adds nothing. -/
theorem compile_private_accesses_iff {text code : String} (h : compile text = .ok code) :
    ∃ program items layouts, (readProgram text).result = .ok program ∧
      (Emit.program (readProgram text).registry program).items = .ok items ∧
        code = Item.programText items ∧
      Layout.all (readProgram text).registry = .ok layouts ∧
      Item.allMembers items = (Program.accesses program).map Access.spelled ∧
      ∀ a ∈ Program.accesses program, isPrivate a.name = true →
        (a.owner = none → a.spelled = a.name) ∧
        ∀ owner, a.owner = some owner →
          (a.spelled = mangle a.name owner ↔ a.isDefault = false ∨ bareOwner owner = "") ∧
          ∃ c l, .classDef c ∈ program ∧ c.name = owner ∧
            layouts.find? (·.className == owner) = some l ∧
            (a.name ∈ c.declaredNames → mangle a.name owner ∈ l.fields.map Field.name) := by
  obtain ⟨program, items, hread, hitems, rfl⟩ := compile_eq_ok_iff.mp h
  obtain ⟨layouts, -, -, hlayouts, -, -, hretains, -⟩ := Emit.retains_of_readProgram hread hitems
  obtain ⟨hregisters, -⟩ := registers_of_readProgram hread
  refine ⟨program, _, layouts, hread, hitems, rfl, hlayouts, hretains.members, ?_⟩
  · intro a ha hprivate
    refine ⟨Access.spelled_of_owner_eq_none hprivate, ?_⟩
    intro owner howner
    refine ⟨Access.spelled_eq_mangle_iff hprivate howner, ?_⟩
    obtain ⟨c, hc, rfl⟩ := exists_class_of_mem_accesses ha howner
    obtain ⟨l, hl, hfields⟩ := Layout.exists_fields (hregisters.founded .empty) hlayouts
      ((mem_latestFirst_iff hread).mpr hc)
    refine ⟨c, l, hc, rfl, hl, ?_⟩
    intro hname
    rw [← memberName_of_isPrivate hprivate]
    exact hfields a.name ((mem_attributes_iff_of_readProgram hread hc).mpr hname)

/-- A private attribute in the default value of a parameter of a method keeps its name, in both
forms of the method. -/
theorem compile_default_unmangled :
    ∃ text program items, text = "class A:\n    def f(self, x=o.__y):\n        pass\n" ∧
      (readProgram text).result = .ok program ∧ compile text = .ok (Item.programText items) ∧
      Program.accesses program = [⟨"__y", some "A", true⟩, ⟨"__y", some "A", true⟩] ∧
      Item.allMembers items = ["__y", "__y"] ∧ mangle "__y" "A" = "_A__y" := by
  obtain ⟨text, htext⟩ : ∃ text, text = "class A:\n    def f(self, x=o.__y):\n        pass\n" :=
    ⟨_, rfl⟩
  have hvalues : (compiled? text fun program items =>
        (Program.accesses program, Item.allMembers items)) =
      some ([⟨"__y", some "A", true⟩, ⟨"__y", some "A", true⟩], ["__y", "__y"]) := by
    subst htext
    decide +kernel
  obtain ⟨program, items, hread, hitems, hcompile, hvalues⟩ := exists_of_compiled? hvalues
  obtain ⟨haccesses, hmembers⟩ := Prod.mk.inj hvalues
  exact ⟨text, program, items, htext, hread, hcompile, haccesses, hmembers, by decide +kernel⟩

/-- Private attributes in a loop, in a function that is defined in a method, in a formatted string,
and outside all classes. -/
theorem compile_private_accesses_nested :
    ∃ text code items layouts, text =
      "class A:\n    def __init__(self, n):\n        self.__x = n\n" ++
        "        for i in n:\n            def g():\n                return f'\x7bself.__x\x7d'\n" ++
        "print(a.__x)\n" ∧
      compile text = .ok code ∧ code = Item.programText items ∧
      Layout.all (readProgram text).registry = .ok layouts ∧
      Item.allMembers items = [mangle "__x" "A", mangle "__x" "A", "__x"] ∧
      ∃ l, layouts.find? (·.className == "A") = some l ∧
        mangle "__x" "A" ∈ l.fields.map Field.name := by
  generalize htext : (_ ++ _ : String) = text
  have hvalues : (compiled? text fun program _ =>
        (Program.accesses program, (program.filterMap Statement.class?).map fun c =>
          (c.name, c.declaredNames))) =
      some ([⟨"__x", some "A", false⟩, ⟨"__x", some "A", false⟩, ⟨"__x", none, false⟩],
        [("A", ["__x"])]) := by
    subst htext
    decide +kernel
  obtain ⟨program, items, hread, hitems, hcompile, hvalues⟩ := exists_of_compiled? hvalues
  obtain ⟨haccesses, hclasses⟩ := Prod.mk.inj hvalues
  obtain ⟨program', items', layouts, hread', -, hcode, hlayouts, hmembers, hall⟩ :=
    compile_private_accesses_iff hcompile
  cases hread.symm.trans hread'
  rw [haccesses] at hmembers hall
  have hprivate : isPrivate "__x" = true := by decide
  have houter := (hall ⟨"__x", none, false⟩ (by simp) hprivate).1 rfl
  obtain ⟨hinner, c, l, hc, hname, hl, hfield⟩ :=
    (hall ⟨"__x", some "A", false⟩ (by simp) hprivate).2 "A" rfl
  refine ⟨text, _, items', layouts, rfl, hcompile, hcode, hlayouts, ?_, l, hl, hfield ?_⟩
  · rw [hmembers, map_cons, map_cons, map_singleton, hinner.mpr (.inl rfl), houter]
  · have hdeclared :=
      mem_map_of_mem (f := fun c => (c.name, c.declaredNames)) (mem_filterMap_class?.mpr hc)
    rw [hclasses, mem_singleton] at hdeclared
    rw [(Prod.mk.inj hdeclared).2]
    exact mem_singleton_self _

end Offside
