import Mathlib.Data.List.Perm.Basic
import Offside.Proofs.Emit.Types
import Offside.Proofs.ReservedWords

/-!
# Names of types and fields

A class becomes two types, its marker and its record.  The names of classes are distinct, but those
of their types need not be: a reserved word is escaped to a name that another class may have, and a
class may have the name of the marker of another one.  The fields of a record are distinct but for
one that the layout does not know, the table of further attributes: an attribute may have its name
(`compile_type_names`).
-/

namespace Offside

open List Target

/-- The name of the type that an event declares. -/
def Target.TypeEvent.declared? : TypeEvent → Option String
  | use _ => none
  | abstractType name => some name
  | record name _ => some name

/-- The names of the types that the class of the given name becomes. -/
def typeNames (className : String) : List String :=
  [markerName (escape className), escape className]

namespace Emit

variable {registry : ClassRegistry}

/-! ## Declarations -/

theorem Mentions.declared {classes : List String} {events : List TypeEvent}
    (h : Mentions registry classes events) :
    events.filterMap TypeEvent.declared? = [] := by
  rw [filterMap_eq_nil_iff]
  intro e he
  obtain ⟨name, rfl⟩ := h.uses e he
  rfl

/-- A statement declares the types of the class that it defines. -/
theorem Spells.declared {s : Statement} {events : List TypeEvent} (h : Spells registry s events) :
    events.filterMap TypeEvent.declared? = (classNames [s]).flatMap typeNames := by
  cases h with
  | classFree hfree h =>
    rw [h.declared, classNames_of_isClassFree hfree]
    rfl
  | @classDef c fields events hfields h =>
    have hsuper : (c.superclass.toList.map fun s => TypeEvent.use (markerName (escape s))).filterMap
        TypeEvent.declared? = [] := by
      rw [filterMap_map, filterMap_eq_nil_iff]
      intro s _
      rfl
    rw [filterMap_append, hsuper, nil_append, filterMap_cons, filterMap_cons, h.declared]
    rfl

theorem declared_flatten {source : Program} {parts : List (List TypeEvent)}
    (h : List.Forall₂ (Spells registry) source parts) :
    parts.flatten.filterMap TypeEvent.declared? = (classNames source).flatMap typeNames := by
  induction h with
  | nil => rfl
  | @cons s events source parts hfirst hrest ih =>
    rw [flatten_cons, filterMap_append, hfirst.declared, ih, ← flatMap_append, ← classNames_append]
    rfl

/-! ## Names of types -/

theorem escape_eq_markerName_iff {a b : String} : escape a = markerName b ↔ a = markerName b := by
  have hwords : ∀ word ∈ reservedWords, "Abstract".toList.isPrefixOf (word ++ "_").toList = false ∧
      "Abstract".toList.isPrefixOf word.toList = false := by decide
  by_cases ha : a ∈ reservedWords
  · have hescaped := (markerName_ne (hwords a ha).1 b).symm
    have hplain := (markerName_ne (hwords a ha).2 b).symm
    rw [escape_of_mem ha]
    exact iff_of_false hescaped hplain
  · rw [escape_of_notMem ha]

theorem nodup_map_escape_iff {names : List String} (h : names.Nodup) :
    (names.map escape).Nodup ↔ ∀ a ∈ names, ∀ b ∈ names, ¬(a ∈ reservedWords ∧ b = a ++ "_") := by
  rw [nodup_map_iff_inj_on h]
  constructor
  · rintro hinj a ha b hb ⟨hword, rfl⟩
    have hne : a ≠ a ++ "_" := by
      intro heq
      exact append_underscore_notMem hword (heq ▸ hword)
    exact hne (hinj a ha _ hb (escape_eq_escape_iff.mpr (.inr (.inl ⟨hword, rfl⟩))))
  · intro hfree a ha b hb heq
    rcases escape_eq_escape_iff.mp heq with heq | hword | hword
    · exact heq
    · exact absurd hword (hfree a ha b hb)
    · exact absurd hword (hfree b hb a ha)

/-- The names of the types of distinct classes are distinct, if no class has the name that another
is escaped to and none has the name of a marker. -/
theorem nodup_typeNames_iff {names : List String} (h : names.Nodup) :
    (names.flatMap typeNames).Nodup ↔ ∀ a ∈ names, ∀ b ∈ names,
      ¬(a ∈ reservedWords ∧ b = a ++ "_") ∧ b ≠ markerName (escape a) := by
  have hperm : (names.flatMap typeNames).Perm (names.map (markerName ∘ escape) ++
      names.map escape) := by
    rw [map_eq_flatMap, map_eq_flatMap]
    exact (flatMap_append_perm names (fun a => [markerName (escape a)]) fun a => [escape a]).symm
  have hmarkers : (names.map (markerName ∘ escape)).Nodup ↔ (names.map escape).Nodup := by
    rw [← map_map]
    exact nodup_map_iff fun _ _ heq => markerName_inj.mp heq
  rw [hperm.nodup_iff, nodup_append, hmarkers, nodup_map_escape_iff h]
  constructor
  · rintro ⟨hfree, -, hdisjoint⟩ a ha b hb
    refine ⟨hfree a ha b hb, ?_⟩
    intro heq
    apply hdisjoint _ (mem_map_of_mem ha) _ (mem_map_of_mem hb)
    exact (escape_eq_markerName_iff.mpr heq).symm
  · intro hall
    refine ⟨fun a ha b hb => (hall a ha b hb).1, fun a ha b hb => (hall a ha b hb).1, ?_⟩
    intro x hx y hy heq
    obtain ⟨a, ha, rfl⟩ := mem_map.mp hx
    obtain ⟨b, hb, rfl⟩ := mem_map.mp hy
    exact (hall a ha b hb).2 (escape_eq_markerName_iff.mp heq.symm)

/-! ## Names of fields -/

/-- A private name does not end as that of the table of further attributes does, whatever is in
front of it. -/
theorem mangled_ne_tableField {name : String} (h : isPrivate name) (front : String) :
    front ++ name ≠ tableField := by
  obtain ⟨hbegins, hsuffix⟩ := Bool.and_eq_true_iff.mp h
  have hmarks := isPrefixOf_iff_prefix.mp hbegins
  have hlength : ['_', '_'].length ≤ name.toList.length := hmarks.length_le
  intro heq
  have hlast : ['_', '_'] <:+ (front ++ name).toList := by
    rw [heq]
    exact ⟨"__dict".toList, rfl⟩
  rw [String.toList_append] at hlast
  have hends := suffix_of_suffix_length_le hlast (suffix_append _ _) hlength
  rw [isSuffixOf_iff_suffix.mpr hends] at hsuffix
  cases hsuffix

/-- No other name becomes that of the table of further attributes. -/
theorem memberName_eq_tableField_iff {name owner : String} :
    memberName name owner = tableField ↔ name = tableField := by
  have hescape {spelled : String} : escape spelled = tableField ↔ spelled = tableField := by
    have hwords : ∀ word ∈ reservedWords, word ++ "_" ≠ tableField ∧ word ≠ tableField := by decide
    by_cases hword : spelled ∈ reservedWords
    · rw [escape_of_mem hword]
      exact iff_of_false (hwords spelled hword).1 (hwords spelled hword).2
    · rw [escape_of_notMem hword]
  rw [memberName, hescape, mangle]
  split
  · rename_i hmangled
    have hprivate := (Bool.and_eq_true_iff.mp hmangled).1
    refine iff_of_false (mangled_ne_tableField hprivate _) ?_
    rintro rfl
    cases hprivate
  · exact Iff.rfl

theorem nodup_eraseDups : ∀ names : List String, names.eraseDups.Nodup
  | [] => nodup_nil
  | name :: names => by
    rw [eraseDups_cons, nodup_cons]
    constructor
    · simp [mem_eraseDups]
    · exact nodup_eraseDups _
termination_by names => names.length
decreasing_by exact Nat.lt_succ_of_le (length_filter_le _ _)

theorem nodup_fields_iff {c : ClassDef} {fields : List Field}
    (h : Layout.Flattens registry (c.declaredFields registry) fields) :
    (tableField :: fields.map Field.name).Nodup ↔
      ∀ a ∈ registry.ancestors c.name, ∀ member ∈ a.attributes, member.name ≠ tableField := by
  have hdistinct : (fields.map Field.name).Nodup := by
    rw [h.names]
    exact nodup_eraseDups _
  have hmem : tableField ∈ fields.map Field.name ↔
      ∃ a ∈ registry.ancestors c.name, ∃ member ∈ a.attributes, member.name = tableField := by
    rw [← h.mem_names]
    simp [ClassDef.declaredFields, Layout.declaredBy, memberName_eq_tableField_iff]
  rw [nodup_cons, hmem]
  simp [hdistinct]

/-- The record of a class has the table of further attributes and the fields of its layout. -/
theorem Spells.exists_of_record {s : Statement} {events : List TypeEvent}
    (h : Spells registry s events) {name : String} {fields : List String}
    (hrecord : .record name fields ∈ events) :
    ∃ c layout, s = .classDef c ∧ name = escape c.name ∧
      Layout.Flattens registry (c.declaredFields registry) layout ∧
      fields = tableField :: layout.map Field.name := by
  cases h with
  | classFree hfree h =>
    obtain ⟨_, hkind⟩ := h.uses _ hrecord
    cases hkind
  | @classDef c layout events hfields h =>
    rcases mem_append.mp hrecord with hsuper | hrecord
    · obtain ⟨_, -, hkind⟩ := mem_map.mp hsuper
      cases hkind
    · rcases mem_cons.mp hrecord with hkind | hrecord
      · cases hkind
      · rcases mem_cons.mp hrecord with hkind | hrecord
        · cases hkind
          exact ⟨c, layout, rfl, rfl, hfields, rfl⟩
        · obtain ⟨_, hkind⟩ := h.uses _ hrecord
          cases hkind

end Emit

/-- In the code of a text that is compiled, the declared types are the markers and records of the
classes, in order.  Their names are distinct exactly if no class has the name that the name of
another is escaped to, and none has the name of the marker of another.  The fields of the record of
a class are the table of further attributes and the attributes that the class and its superclasses
declare, each once.  Their names are distinct exactly if none of these attributes has the name of
the table. -/
theorem compile_type_names {text code : String} (h : compile text = .ok code) :
    ∃ program items, (readProgram text).result = .ok program ∧
      (Emit.program (readProgram text).registry program).items = .ok items ∧
      code = Item.programText items ∧
      (Item.allTypeEvents items).filterMap TypeEvent.declared? =
        (classNames program).flatMap typeNames ∧
      (((Item.allTypeEvents items).filterMap TypeEvent.declared?).Nodup ↔
        ∀ a ∈ classNames program, ∀ b ∈ classNames program,
          ¬(a ∈ reservedWords ∧ b = a ++ "_") ∧ b ≠ markerName (escape a)) ∧
      ∀ name fields, .record name fields ∈ Item.allTypeEvents items →
        ∃ c, .classDef c ∈ program ∧ name = escape c.name ∧
          fields = tableField ::
            ((c.declaredFields (readProgram text).registry).map Prod.fst).eraseDups ∧
          (fields.Nodup ↔ ∀ a ∈ (readProgram text).registry.ancestors c.name,
            ∀ member ∈ a.attributes, member.name ≠ "__dict__") := by
  obtain ⟨program, items, parts, hread, hitems, hcode, hparts, hevents⟩ := spells_of_compile h
  have hnames := (wellFormed_of_readProgram hread).classes
  have hfront : (Emit.frontEvents (readProgram text).registry).filterMap
      TypeEvent.declared? = [] := by
    rw [filterMap_eq_nil_iff]
    intro e he
    rcases (Emit.mem_frontEvents.mp he).2 with rfl | rfl <;> rfl
  have hdeclared : (Item.allTypeEvents items).filterMap TypeEvent.declared? =
      (classNames program).flatMap typeNames := by
    rw [hevents, filterMap_append, hfront, nil_append, Emit.declared_flatten hparts]
  refine ⟨program, items, hread, hitems, hcode, hdeclared, ?_, ?_⟩
  · rw [hdeclared, Emit.nodup_typeNames_iff hnames]
  · intro name fields hrecord
    rw [hevents, mem_append, Emit.mem_frontEvents] at hrecord
    rcases hrecord with ⟨-, hkind | hkind⟩ | hrecord
    · cases hkind
    · cases hkind
    · obtain ⟨s, hs, events, hspells, hrecord⟩ := Emit.exists_of_mem_flatten hparts hrecord
      obtain ⟨c, layout, rfl, hname, hflat, rfl⟩ := hspells.exists_of_record hrecord
      exact ⟨c, hs, hname, by rw [hflat.names], Emit.nodup_fields_iff hflat⟩

/-- An attribute with the name of the table becomes a second field of this name, and a class with
the name of a marker a second type of this name. -/
theorem compile_repeats_names :
    ∃ text code program items, text =
      "class A:\n    def __init__(self):\n        self.__dict__ = 1\n" ++
        "class AbstractA:\n    pass\n" ∧
      compile text = .ok code ∧ (readProgram text).result = .ok program ∧
      (Emit.program (readProgram text).registry program).items = .ok items ∧
      code = Item.programText items ∧
      ¬((Item.allTypeEvents items).filterMap TypeEvent.declared?).Nodup ∧
      ∃ fields, .record "A" fields ∈ Item.allTypeEvents items ∧ ¬fields.Nodup := by
  generalize htext : (_ ++ _ : String) = text
  have hevents : (compiled? text fun _ items =>
        ((Item.allTypeEvents items).filterMap TypeEvent.declared?,
          (Item.allTypeEvents items).contains (.record "A" ["__dict__", "__dict__"]))) =
      some (["AbstractA", "A", "AbstractAbstractA", "AbstractA"], true) := by
    subst htext
    decide +kernel
  obtain ⟨program, items, hread, hitems, hcompile, hevents⟩ := exists_of_compiled? hevents
  obtain ⟨hdeclared, hrecord⟩ := Prod.mk.inj hevents
  refine ⟨text, _, program, items, rfl, hcompile, hread, hitems, rfl, ?_, _,
    contains_iff_mem.mp hrecord, by decide⟩
  rw [hdeclared]
  decide

/-- A class with a private attribute below one with a reserved name. -/
theorem compile_type_names_subclass :
    ∃ text code items, text = "class end:\n    def __init__(self):\n        self.x = 1\n" ++
        "class B(end):\n    def __init__(self):\n        self.x = 2\n        self.__y = 3\n" ∧
      compile text = .ok code ∧ code = Item.programText items ∧
      (Item.allTypeEvents items).filterMap TypeEvent.declared? =
        ["Abstractend_", "end_", "AbstractB", "B"] ∧
      ((Item.allTypeEvents items).filterMap TypeEvent.declared?).Nodup ∧
      .record "B" ["__dict__", "x", "_B__y"] ∈ Item.allTypeEvents items ∧
      ∃ c : ClassDef, "B" = escape c.name ∧ ∀ a ∈ (readProgram text).registry.ancestors c.name,
        ∀ member ∈ a.attributes, member.name ≠ "__dict__" := by
  generalize htext : (_ ++ _ : String) = text
  have hevents : (compiled? text fun program items =>
        (classNames program,
          (Item.allTypeEvents items).contains (.record "B" ["__dict__", "x", "_B__y"]))) =
      some (["end", "B"], true) := by
    subst htext
    decide +kernel
  obtain ⟨program, items, hread, hitems, hcompile, hevents⟩ := exists_of_compiled? hevents
  obtain ⟨hnames, hrecord⟩ := Prod.mk.inj hevents
  obtain ⟨program', items', hread', hitems', -, hdeclared, hdistinct, hfields⟩ :=
    compile_type_names hcompile
  cases hread.symm.trans hread'
  cases hitems.symm.trans hitems'
  have hrecord := contains_iff_mem.mp hrecord
  obtain ⟨c, -, hname, -, hunique⟩ := hfields _ _ hrecord
  rw [hnames] at hdeclared hdistinct
  exact ⟨text, _, items, rfl, hcompile, rfl, hdeclared, hdistinct.mpr (by decide),
    hrecord, c, hname,
    hunique.mp (by decide)⟩

end Offside
