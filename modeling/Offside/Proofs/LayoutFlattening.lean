import Offside.Class.Layout
import Offside.Proofs.Class.Ancestors
import Offside.Proofs.Outcome

/-!
# Layouts flatten the chains of superclasses

The layout of a class is made from that of its superclass, which was made before it.  Said about the
whole chain at once: the fields of a class are the attributes that the classes of its chain declare,
from the root down, each under the name that it has as a member of the declaring class.  Where a
name comes up again, only its first declaration counts (`Flattens`).

Entering one attribute keeps this (`flattens_enterField`), so entering those of a class does, and so
does going through the classes in the order of registration (`describes_foldlM`).
-/

namespace Offside.Layout

open List Target

/-! ## Flattening -/

/-- The fields that a class declares: the name of each attribute as a member of the class, and the
hint it is declared with. -/
def declaredBy (c : ClassDef) : List (String × Option TypeHint) :=
  c.attributes.map fun a => (memberName a.name c.name, a.hint)

/-- The type that an optional hint stands for. -/
def typeOf (registry : ClassRegistry) : Option TypeHint → Except SemanticError TypeName
  | none => .ok .any
  | some hint => TypeName.ofHint registry hint

/-- The fields are those that are declared, without repetitions.  A field stands where its name is
first declared, with the type that it is given there. -/
structure Flattens (registry : ClassRegistry) (declared : List (String × Option TypeHint))
    (fields : List Field) : Prop where
  names : fields.map Field.name = (declared.map Prod.fst).eraseDups
  types : ∀ field ∈ fields, ∃ hint, declared.find? (·.1 == field.name) = some (field.name, hint) ∧
    typeOf registry hint = .ok field.type

section Fields

variable {registry : ClassRegistry} {className : String}
  {declared : List (String × Option TypeHint)} {fields fields' : List Field}

theorem flattens_nil : Flattens registry [] [] := ⟨rfl, forall_mem_nil _⟩

variable {name : String}

theorem Flattens.mem_names (h : Flattens registry declared fields) :
    name ∈ declared.map Prod.fst ↔ name ∈ fields.map Field.name := by
  rw [h.names, mem_eraseDups]

theorem enterField_eq (fields : List Field) (a : Attribute) :
    enterField registry className fields a =
      if memberName a.name className ∈ fields.map Field.name then .ok fields
      else do return fields ++ [⟨memberName a.name className, ← typeOf registry a.hint⟩] := by
  have hany : fields.any (·.name == memberName a.name className) ↔
      memberName a.name className ∈ fields.map Field.name := by
    simp
  unfold enterField
  simp only [hany]
  congr 1
  cases a.hint <;> rfl

/-- A name that was declared before changes nothing. -/
theorem Flattens.repeated (h : Flattens registry declared fields)
    (hname : name ∈ fields.map Field.name) (hint : Option TypeHint) :
    Flattens registry (declared ++ [(name, hint)]) fields where
  names := by
    have hold := h.mem_names.mpr hname
    rw [map_append, eraseDups_append, ← h.names]
    simp [removeAll, hold]
  types := by
    intro field hfield
    obtain ⟨first, hfirst, htype⟩ := h.types field hfield
    exact ⟨first, by rw [find?_append, hfirst, Option.some_or], htype⟩

/-- A new name becomes the last field. -/
theorem Flattens.concat (h : Flattens registry declared fields)
    (hname : name ∉ fields.map Field.name) {hint : Option TypeHint} {type : TypeName}
    (htype : typeOf registry hint = .ok type) :
    Flattens registry (declared ++ [(name, hint)]) (fields ++ [⟨name, type⟩]) where
  names := by
    have hnew : name ∉ declared.map Prod.fst := fun hold => hname (h.mem_names.mp hold)
    rw [map_append, map_append, eraseDups_append, h.names]
    simp [removeAll, eraseDups_cons, hnew]
  types := by
    intro field hfield
    rcases mem_append.mp hfield with hfield | hfield
    · obtain ⟨first, hfirst, htype⟩ := h.types field hfield
      exact ⟨first, by rw [find?_append, hfirst, Option.some_or], htype⟩
    · obtain rfl := mem_singleton.mp hfield
      have hnone : declared.find? (·.1 == name) = none := by
        rw [find?_eq_none]
        intro d hd heq
        refine hname (h.mem_names.mp (mem_map.mpr ⟨d, hd, ?_⟩))
        simpa using heq
      refine ⟨hint, ?_, htype⟩
      rw [find?_append, hnone, Option.none_or]
      simp

theorem flattens_enterField {a : Attribute} (h : Flattens registry declared fields)
    (henter : enterField registry className fields a = .ok fields') :
    Flattens registry (declared ++ [(memberName a.name className, a.hint)]) fields' ∧
      fields <+: fields' := by
  rw [enterField_eq] at henter
  by_cases hname : memberName a.name className ∈ fields.map Field.name
  · rw [if_pos hname] at henter
    cases henter
    exact ⟨h.repeated hname a.hint, prefix_rfl⟩
  · rw [if_neg hname] at henter
    obtain ⟨type, htype, rfl⟩ := exists_of_map_eq_ok henter
    exact ⟨h.concat hname htype, prefix_append _ _⟩

/-- The attributes of a class go behind the fields that it inherits. -/
theorem flattens_foldlM {attributes : List Attribute} (h : Flattens registry declared fields)
    (hfold : attributes.foldlM (enterField registry className) fields = .ok fields') :
    Flattens registry
        (declared ++ attributes.map fun a => (memberName a.name className, a.hint)) fields' ∧
      fields <+: fields' := by
  induction attributes generalizing declared fields with
  | nil =>
    cases hfold
    rw [map_nil, append_nil]
    exact ⟨h, prefix_rfl⟩
  | cons a attributes ih =>
    rw [foldlM_cons] at hfold
    obtain ⟨mid, hmid, hfold⟩ := exists_of_bind_eq_ok hfold
    obtain ⟨hflat, hprefix⟩ := flattens_enterField h hmid
    obtain ⟨hflat', hprefix'⟩ := ih hflat hfold
    rw [append_assoc] at hflat'
    exact ⟨hflat', hprefix.trans hprefix'⟩

end Fields

/-! ## Classes -/

/-- What the layout of a class says, among the layouts of all classes. -/
structure Describes (registry : ClassRegistry) (layouts : List Layout) (c : ClassDef) (l : Layout) :
    Prop where
  className : l.className = c.name
  fields : Flattens registry ((registry.ancestors c.name).reverse.flatMap declaredBy) l.fields
  /-- The fields of the superclass come first, and its marker is the marker above. -/
  inherits : ∀ s ∈ c.superclass, ∃ parent ∈ layouts, parent.className = s ∧
    parent.fields <+: l.fields ∧ l.superMarker = some parent.marker
  root : c.superclass = none → l.superMarker = none
  initializer : l.needsInitializer = true ↔
    ∀ a ∈ registry.ancestors c.name, ¬∃ f, Statement.function f ∈ a.body ∧ f.name = initializerName

variable {layouts : List Layout}

theorem Describes.mono {registry : ClassRegistry} {layouts' : List Layout} {c : ClassDef}
    {l : Layout} (h : Describes registry layouts c l) (hsub : layouts ⊆ layouts') :
    Describes registry layouts' c l := by
  refine ⟨h.className, h.fields, ?_, h.root, h.initializer⟩
  intro s hs
  obtain ⟨parent, hparent, hrest⟩ := h.inherits s hs
  exact ⟨parent, hsub hparent, hrest⟩

section Classes

variable {registry : ClassRegistry} (hregistry : registry.Founded)

include hregistry

/-- The layout of a class, if the layout of its superclass is there already. -/
theorem describes_ofClass {c : ClassDef} (hc : c ∈ registry.latestFirst)
    (hlayouts : ∀ p ∈ layouts, ∃ d ∈ registry.latestFirst, Describes registry layouts d p)
    (hparent : ∀ s ∈ c.superclass, s ∈ layouts.map className) {l : Layout}
    (h : ofClass registry layouts c = .ok l) : Describes registry layouts c l := by
  have hget : registry.get? c.name = some c := hregistry.get?_eq_some_iff.mpr ⟨hc, rfl⟩
  have hinitializer : (registry.owner? c.name initializerName).isNone ↔
      ∀ a ∈ registry.ancestors c.name, ¬∃ f, Statement.function f ∈ a.body ∧
        f.name = initializerName := by
    rw [Option.isNone_iff_eq_none, ClassRegistry.owner?_eq_none_iff]
    simp only [← ClassRegistry.declares_iff, Bool.not_eq_true]
  unfold ofClass at h
  obtain ⟨fields, hfields, rfl⟩ := exists_of_map_eq_ok h
  cases hs : c.superclass with
  | none =>
    rw [hs] at hfields
    obtain ⟨hflat, -⟩ := flattens_foldlM flattens_nil hfields
    refine ⟨rfl, ?_, ?_, ?_, hinitializer⟩
    · rw [hregistry.ancestors_of_some hget, hs]
      simpa [declaredBy] using hflat
    · intro s hsuper
      exact absurd hsuper (by simp [hs])
    · intro _
      rfl
  | some s =>
    -- the layout that is found for the superclass is the one that was made for it
    obtain ⟨p, hp, hname⟩ := mem_map.mp (hparent s hs)
    have hsome : (layouts.find? (·.className == s)).isSome := by
      rw [find?_isSome]
      exact ⟨p, hp, by simpa using hname⟩
    obtain ⟨parent, hfound⟩ := Option.isSome_iff_exists.mp hsome
    have hmem : parent ∈ layouts := mem_of_find?_eq_some hfound
    have hparentName : parent.className = s := by simpa using find?_some hfound
    obtain ⟨d, -, hdescribes⟩ := hlayouts parent hmem
    have hd : d.name = s := hdescribes.className.symm.trans hparentName
    rw [hs, Option.bind_some, hfound] at hfields
    obtain ⟨hflat, hprefix⟩ := flattens_foldlM hdescribes.fields hfields
    refine ⟨rfl, ?_, ?_, ?_, hinitializer⟩
    · rw [hregistry.ancestors_of_some hget, hs]
      simpa [declaredBy, hd] using hflat
    · intro t ht
      obtain rfl : s = t := by simpa [hs] using ht
      refine ⟨parent, hmem, hparentName, hprefix, ?_⟩
      simp only [superMarker, Option.bind_some, hfound]
      rfl
    · intro hnone
      cases hs.symm.trans hnone

/-- Going through classes in the order of registration makes one layout for each of them. -/
theorem describes_foldlM {earlier : List ClassDef} (hearlier : ClassRegistry.Founded ⟨earlier⟩)
    (hsub : earlier ⊆ registry.latestFirst) (h : earlier.reverse.foldlM
      (fun layouts c => do return layouts ++ [← ofClass registry layouts c]) [] = .ok layouts) :
    layouts.map className = ClassRegistry.order ⟨earlier⟩ ∧
      ∀ l ∈ layouts, ∃ c ∈ earlier, Describes registry layouts c l := by
  induction earlier generalizing layouts with
  | nil =>
    cases h
    exact ⟨rfl, forall_mem_nil _⟩
  | cons c earlier ih =>
    obtain ⟨hknown, hrest⟩ : (∀ s ∈ c.superclass, s ∈ ClassRegistry.order ⟨earlier⟩) ∧
        ClassRegistry.Founded ⟨earlier⟩ := by
      cases hearlier with
      | cons _ hknown hrest => exact ⟨hknown, hrest⟩
    obtain ⟨hc, hsub⟩ := cons_subset.mp hsub
    rw [reverse_cons, foldlM_append] at h
    obtain ⟨before, hbefore, h⟩ := exists_of_bind_eq_ok h
    obtain ⟨hnames, hdescribes⟩ := ih hrest hsub hbefore
    simp only [foldlM_cons, foldlM_nil, bind_pure] at h
    obtain ⟨l, hl, rfl⟩ := exists_of_map_eq_ok h
    have hlast : Describes registry before c l := by
      refine describes_ofClass hregistry hc ?_ ?_ hl
      · intro p hp
        obtain ⟨d, hd, hp⟩ := hdescribes p hp
        exact ⟨d, hsub hd, hp⟩
      · intro s hs
        rw [hnames]
        exact hknown s hs
    have hmore : before ⊆ before ++ [l] := subset_append_left _ _
    constructor
    · rw [ClassRegistry.order_cons, map_append, hnames, map_singleton, hlast.className]
    · intro p hp
      rcases mem_append.mp hp with hp | hp
      · obtain ⟨d, hd, hp⟩ := hdescribes p hp
        exact ⟨d, mem_cons_of_mem _ hd, hp.mono hmore⟩
      · rw [mem_singleton.mp hp]
        exact ⟨c, mem_cons_self, hlast.mono hmore⟩

end Classes

/-- In a registry that was filled without an error and whose layouts are known, every class has
exactly one layout, and it flattens the chain of its superclasses. -/
theorem all_flattens {registry : ClassRegistry} {classes : List ClassDef}
    (hregistry : ClassRegistry.empty.Registers classes registry) {layouts : List Layout}
    (h : all registry = .ok layouts) :
    layouts.map className = registry.order ∧ registry.order.Nodup ∧
      ∀ c ∈ registry.classes, ∃ l ∈ layouts, Describes registry layouts c l := by
  have hfounded := hregistry.founded .empty
  obtain ⟨hnames, hdescribes⟩ := describes_foldlM hfounded hfounded (List.Subset.refl _) h
  refine ⟨hnames, hfounded.nodup_order, ?_⟩
  intro c hc
  have hname : c.name ∈ layouts.map className := by
    rw [hnames]
    exact mem_map_of_mem hc
  obtain ⟨l, hl, hlc⟩ := mem_map.mp hname
  obtain ⟨d, hd, hdescribes⟩ := hdescribes l hl
  -- no two classes have one name
  have hfound := hfounded.get?_eq_some_iff.mpr ⟨hd, hdescribes.className.symm.trans hlc⟩
  have hfound' := hfounded.get?_eq_some_iff.mpr ⟨ClassRegistry.mem_classes.mp hc, rfl⟩
  obtain rfl := Option.some.inj (hfound.symm.trans hfound')
  exact ⟨l, hl, hdescribes⟩

/-- A subclass that declares a reserved word and a private attribute again, and an attribute of its
own. -/
theorem all_flattens_redeclared :
    ∃ (base sub : ClassDef) (layouts : List Layout),
      ClassRegistry.empty.Registers [base, sub] ⟨[sub, base]⟩ ∧ all ⟨[sub, base]⟩ = .ok layouts ∧
      base.attributes.map Attribute.name = ["end", "__x"] ∧
      sub.attributes.map Attribute.name = ["__x", "end", "y"] ∧
      (∃ l ∈ layouts, Describes ⟨[sub, base]⟩ layouts sub l) ∧
      layouts.map (fun l => l.fields.map Field.name) =
        [["end_", "_A__x"], ["end_", "_A__x", "_B__x", "y"]] := by
  let base : ClassDef := ⟨"A", none, [], [⟨"end", none⟩, ⟨"__x", none⟩], {}⟩
  let sub : ClassDef := ⟨"B", "A", [], [⟨"__x", none⟩, ⟨"end", none⟩, ⟨"y", none⟩], {}⟩
  have hregisters : ClassRegistry.empty.Registers [base, sub] ⟨[sub, base]⟩ := by
    have hbase : ClassRegistry.empty.register base = .ok ⟨[base]⟩ :=
      ClassRegistry.register_eq_ok_iff.mpr ⟨by decide, by simp [base], rfl⟩
    have hsub : ClassRegistry.register ⟨[base]⟩ sub = .ok ⟨[sub, base]⟩ :=
      ClassRegistry.register_eq_ok_iff.mpr
        ⟨by decide, by simp [sub, base, ClassRegistry.contains], rfl⟩
    exact .cons hbase (.cons hsub .nil)
  have hfields : (all ⟨[sub, base]⟩).toOption.map (·.map fun l => l.fields.map Field.name) =
      some [["end_", "_A__x"], ["end_", "_A__x", "_B__x", "y"]] := by
    decide +kernel
  obtain ⟨layouts, hall, hfields⟩ := Option.map_eq_some_iff.mp hfields
  have hall := eq_ok_of_toOption hall
  obtain ⟨-, -, hdescribes⟩ := all_flattens hregisters hall
  exact ⟨base, sub, layouts, hregisters, hall, rfl, rfl,
    hdescribes sub (ClassRegistry.mem_classes.mpr mem_cons_self), hfields⟩

end Offside.Layout
