import Offside.Proofs.LaterClasses
import Offside.Proofs.Reader.WellFormedProgram
import Offside.Proofs.Target.Private

/-!
# Fields of private attributes

A private attribute is laid out under a name that holds the name of its class.  The class has this
field, but it need not have it for itself: a superclass has it too if one of its attributes, or one
of a class above it, is spelled alike as a member of the class that declares it
(`layout_private_iff`).
-/

namespace Offside

open List Target

/-! ## Declared attributes -/

/-- The names of the attributes that the initializers of a class declare, as often as they do. -/
def ClassDef.declaredNames (c : ClassDef) : List String :=
  (c.methods.flatMap FunctionDef.declaredAttributes).map Attribute.name

theorem Attribute.mem_names_enter {attributes : List Attribute} {new : Attribute} {name : String} :
    name ∈ (Attribute.enter attributes new).map Attribute.name ↔
      name ∈ attributes.map Attribute.name ∨ name = new.name := by
  fun_induction Attribute.enter attributes new with
  | case1 new => simp
  | case2 old rest new hname =>
    simp only [map_cons, mem_cons, ← hname]
    tauto
  | case3 old rest new hname ih =>
    simp only [map_cons, mem_cons, ih, or_assoc]

theorem Attribute.mem_names_foldl {declared attributes : List Attribute} {name : String} :
    name ∈ (declared.foldl Attribute.enter attributes).map Attribute.name ↔
      name ∈ attributes.map Attribute.name ∨ name ∈ declared.map Attribute.name := by
  induction declared generalizing attributes with
  | nil => simp
  | cons new declared ih =>
    rw [foldl_cons, ih, Attribute.mem_names_enter, map_cons, mem_cons, or_assoc]

/-- The attributes of a class are those that its initializers declare. -/
theorem ClassDef.WellFormed.mem_attributes_iff {c : ClassDef} (h : c.WellFormed) {name : String} :
    name ∈ c.attributes.map Attribute.name ↔ name ∈ c.declaredNames := by
  rw [h.attributes, attributesOfBody, Attribute.mem_names_foldl]
  simp [ClassDef.declaredNames, ClassDef.methods]

/-! ## Fields of layouts -/

namespace Layout

variable {registry : ClassRegistry} {layouts : List Layout} {c : ClassDef} {l : Layout}

/-- The layout that is found under the name of a class describes the class. -/
theorem describes_of_find? (hregistry : registry.Founded) (h : all registry = .ok layouts)
    (hc : c ∈ registry.latestFirst) (hl : layouts.find? (·.className == c.name) = some l) :
    Describes registry layouts c l := by
  obtain ⟨-, hdescribes⟩ := describes_foldlM hregistry hregistry (List.Subset.refl _) h
  obtain ⟨d, hd, hdescribed⟩ := hdescribes l (mem_of_find?_eq_some hl)
  have hfoundName := find?_some hl
  have hname : d.name = c.name := hdescribed.className.symm.trans (eq_of_beq hfoundName)
  -- no two classes have one name
  have hfound := hregistry.get?_eq_some_iff.mpr ⟨hd, hname⟩
  have hfound' := hregistry.get?_eq_some_iff.mpr ⟨hc, rfl⟩
  rwa [Option.some.inj (hfound.symm.trans hfound')] at hdescribed

/-- The fields of a layout are the members that the classes from its class upwards declare. -/
theorem Describes.mem_names_iff (h : Describes registry layouts c l) {field : String} :
    field ∈ l.fields.map Field.name ↔
      ∃ d ∈ registry.ancestors c.name, ∃ name ∈ d.attributes.map Attribute.name,
        memberName name d.name = field := by
  rw [← h.fields.mem_names]
  simp [declaredBy]

/-- Every class has a layout, with a field for each of its attributes. -/
theorem exists_fields (hregistry : registry.Founded) (h : all registry = .ok layouts)
    (hc : c ∈ registry.latestFirst) :
    ∃ l, layouts.find? (·.className == c.name) = some l ∧
      ∀ name ∈ c.attributes.map Attribute.name,
        memberName name c.name ∈ l.fields.map Field.name := by
  obtain ⟨l, hl⟩ := exists_layout hregistry h (mem_map_of_mem (ClassRegistry.mem_classes.mpr hc))
  refine ⟨l, hl, fun name hname => ?_⟩
  have hself : c ∈ registry.ancestors c.name := by
    rw [hregistry.ancestors_of_some (hregistry.get?_eq_some_iff.mpr ⟨hc, rfl⟩)]
    exact mem_cons_self
  exact (describes_of_find? hregistry h hc hl).mem_names_iff.mpr ⟨c, hself, name, hname, rfl⟩

end Layout

section Programs

variable {text : String} {program : Program} (hread : (readProgram text).result = .ok program)

include hread

theorem mem_attributes_iff_of_readProgram {c : ClassDef} (hc : .classDef c ∈ program)
    {name : String} :
    name ∈ c.attributes.map Attribute.name ↔ name ∈ c.declaredNames := by
  rcases (wellFormed_of_readProgram hread).statements _ hc with hwell | ⟨c', heq, hwell⟩
  · cases hwell
  · cases heq
    exact hwell.mem_attributes_iff

end Programs

/-- Every private attribute that a class declares has a field in the layout of the class.  The
layout of its superclass has this field too exactly if the superclass or a class above it declares
an attribute that is spelled alike: a private one, if it makes the same text behind the name of its
class, or another one, if it is named as the field is. -/
theorem layout_private_iff {text : String} {program : Program} {layouts : List Layout}
    (hread : (readProgram text).result = .ok program)
    (hlayouts : Layout.all (readProgram text).registry = .ok layouts) {c : ClassDef}
    (hc : .classDef c ∈ program) {name : String} (hname : name ∈ c.declaredNames)
    (hprivate : isPrivate name = true) :
    (∃ l, layouts.find? (·.className == c.name) = some l ∧
      memberName name c.name ∈ l.fields.map Field.name) ∧
    ∀ s ∈ c.superclass, ∃ parent, layouts.find? (·.className == s) = some parent ∧
      (memberName name c.name ∈ parent.fields.map Field.name ↔
        ∃ d ∈ (readProgram text).registry.ancestors s, ∃ other ∈ d.declaredNames,
          isPrivate other = true ∧ bareOwner d.name ++ other = bareOwner c.name ++ name ∨
            isPrivate other = false ∧ bareOwner c.name ≠ "" ∧
              other = "_" ++ bareOwner c.name ++ name) := by
  obtain ⟨hregisters, -⟩ := registers_of_readProgram hread
  have hfounded := hregisters.founded .empty
  have hregistered := (mem_latestFirst_iff hread).mpr hc
  constructor
  · obtain ⟨l, hl, hfields⟩ := Layout.exists_fields hfounded hlayouts hregistered
    exact ⟨l, hl, hfields name ((mem_attributes_iff_of_readProgram hread hc).mpr hname)⟩
  · intro s hs
    obtain ⟨d, hd, rfl⟩ := ClassRegistry.contains_iff.mp
      (hregisters.isClosed ClassRegistry.isClosed_empty c hregistered s hs)
    obtain ⟨parent, hparent⟩ := Layout.exists_layout hfounded hlayouts (mem_map_of_mem
      (ClassRegistry.mem_classes.mpr hd))
    refine ⟨parent, hparent, ?_⟩
    rw [(Layout.describes_of_find? hfounded hlayouts hd hparent).mem_names_iff]
    have hbelow {a : ClassDef} (ha : a ∈ (readProgram text).registry.ancestors d.name) :
        .classDef a ∈ program := (mem_latestFirst_iff hread).mp (ClassRegistry.mem_of_mem_chain ha)
    constructor
    · rintro ⟨a, ha, other, hother, heq⟩
      exact ⟨a, ha, other, (mem_attributes_iff_of_readProgram hread (hbelow ha)).mp hother,
        (memberName_eq_memberName_iff hprivate).mp heq⟩
    · rintro ⟨a, ha, other, hother, halike⟩
      exact ⟨a, ha, other, (mem_attributes_iff_of_readProgram hread (hbelow ha)).mpr hother,
        (memberName_eq_memberName_iff hprivate).mpr halike⟩

/-- Without the underscore in front of it, the name of the subclass is that of the superclass, and
so the two private attributes have one field. -/
theorem layout_shares_private :
    ∃ text program layouts c s parent,
      text = "class A:\n    def __init__(self):\n        self.__x = 1\n" ++
        "class _A(A):\n    def __init__(self):\n        self.__x = 2\n" ∧
      (readProgram text).result = .ok program ∧
      Layout.all (readProgram text).registry = .ok layouts ∧ .classDef c ∈ program ∧
      "__x" ∈ c.declaredNames ∧ isPrivate "__x" = true ∧ s ∈ c.superclass ∧
      layouts.find? (·.className == s) = some parent ∧
      memberName "__x" c.name ∈ parent.fields.map Field.name := by
  generalize htext : (_ ++ _ : String) = text
  have hvalues : ((readProgram text).result.toOption.bind fun program =>
      (Layout.all (readProgram text).registry).toOption.map fun layouts =>
        ((program.filterMap Statement.class?).map fun c => (c.name, c.superclass, c.declaredNames),
          (layouts.find? (·.className == "A")).map (·.fields.map Field.name))) =
      some ([("A", none, ["__x"]), ("_A", some "A", ["__x"])], some ["_A__x"]) := by
    subst htext
    decide +kernel
  obtain ⟨program, hread, hvalues⟩ := Option.bind_eq_some_iff.mp hvalues
  obtain ⟨layouts, hlayouts, hvalues⟩ := Option.map_eq_some_iff.mp hvalues
  obtain ⟨hclasses, hfields⟩ := Prod.mk.inj hvalues
  obtain ⟨c, hc, hclass⟩ : ∃ c ∈ program.filterMap Statement.class?,
      (c.name, c.superclass, c.declaredNames) = ("_A", some "A", ["__x"]) := by
    rw [← mem_map, hclasses]
    simp
  simp only [Prod.mk.injEq] at hclass
  obtain ⟨hname, hsuper, hdeclared⟩ := hclass
  obtain ⟨parent, hparent, hfields⟩ := Option.map_eq_some_iff.mp hfields
  refine ⟨text, program, layouts, c, "A", parent, rfl, eq_ok_of_toOption hread,
    eq_ok_of_toOption hlayouts,
    mem_filterMap_class?.mp hc, by simp [hdeclared], by decide, hsuper, hparent, ?_⟩
  rw [hname, hfields]
  decide

/-- A class that declares the private attribute of its superclass again has a field of its own for
it. -/
theorem layout_private_iff_redeclared :
    ∃ text program layouts c l parent,
      text = "class Animal:\n    def __init__(self, name):\n        self.name = name\n" ++
        "        self.__secret = 1\nclass Cat(Animal):\n    def __init__(self, name):\n" ++
        "        super().__init__(name)\n        self.__secret = 2\n" ∧
      (readProgram text).result = .ok program ∧
      Layout.all (readProgram text).registry = .ok layouts ∧ .classDef c ∈ program ∧
        c.name = "Cat" ∧
      "__secret" ∈ c.declaredNames ∧
      layouts.find? (·.className == c.name) = some l ∧ "_Cat__secret" ∈ l.fields.map Field.name ∧
      layouts.find? (·.className == "Animal") = some parent ∧
      "_Cat__secret" ∉ parent.fields.map Field.name := by
  generalize htext : (_ ++ _ : String) = text
  have hvalues : ((readProgram text).result.toOption.bind fun program =>
      (Layout.all (readProgram text).registry).toOption.map fun _ =>
        ((program.filterMap Statement.class?).map fun c => (c.name, c.superclass, c.declaredNames),
          ((readProgram text).registry.ancestors "Animal").map fun d =>
            (d.name, d.declaredNames))) =
      some ([("Animal", none, ["name", "__secret"]), ("Cat", some "Animal", ["__secret"])],
        [("Animal", ["name", "__secret"])]) := by
    subst htext
    decide +kernel
  obtain ⟨program, hread, hvalues⟩ := Option.bind_eq_some_iff.mp hvalues
  obtain ⟨layouts, hlayouts, hvalues⟩ := Option.map_eq_some_iff.mp hvalues
  obtain ⟨hclasses, habove⟩ := Prod.mk.inj hvalues
  obtain ⟨c, hc, hclass⟩ : ∃ c ∈ program.filterMap Statement.class?,
      (c.name, c.superclass, c.declaredNames) = ("Cat", some "Animal", ["__secret"]) := by
    rw [← mem_map, hclasses]
    simp
  simp only [Prod.mk.injEq] at hclass
  obtain ⟨hname, hsuper, hdeclared⟩ := hclass
  have hc := mem_filterMap_class?.mp hc
  have hmem : "__secret" ∈ c.declaredNames := by simp [hdeclared]
  obtain ⟨⟨l, hl, hfield⟩, hparent⟩ := layout_private_iff (eq_ok_of_toOption hread)
    (eq_ok_of_toOption hlayouts) hc hmem (by decide)
  obtain ⟨parent, hparent, hshared⟩ := hparent "Animal" hsuper
  have hspelled : memberName "__secret" c.name = "_Cat__secret" := by
    rw [hname]
    decide
  refine ⟨text, program, layouts, c, l, parent, rfl, eq_ok_of_toOption hread,
    eq_ok_of_toOption hlayouts,
    hc, hname, hmem, hl, hspelled ▸ hfield, hparent, ?_⟩
  rw [← hspelled, hshared]
  rintro ⟨d, hd, other, hother, halike⟩
  -- the only class above declares two attributes, and neither is spelled as the field is
  have hentry : (d.name, d.declaredNames) ∈ [("Animal", ["name", "__secret"])] :=
    habove ▸ mem_map_of_mem hd
  obtain ⟨hd, hnames⟩ := Prod.mk.inj (mem_singleton.mp hentry)
  rw [hd, hname] at halike
  rw [hnames] at hother
  revert halike
  revert other
  decide

end Offside
