import Offside.Proofs.Emit.Lexical
import Offside.Proofs.LayoutFlattening
import Offside.Proofs.Tree.WellFormedProgram

/-!
# Names in layouts

The types and the fields of the layout of a well-formed class have names of the emitted language,
and no field is named like a word that opens or closes blocks (`isLexical_all`).
-/

namespace Offside

open Julia Target List

/-! ## Types -/

/-- The type of a well-formed hint.  The hint `None` is a type of its own, all others are names. -/
theorem lexical_ofHint {registry : ClassRegistry} : ∀ {hint : TypeHint} {type : TypeName},
    hint.isWellFormed → TypeName.ofHint registry hint = .ok type → type.isLexical
  | ⟨name, [], span⟩, type, hwf, h => by
    have hscalars : ∀ scalar ∈ TypeName.scalars, scalar.2.isLexical := by decide
    unfold TypeName.ofHint at h
    split at h
    · rename_i found hfound
      cases h
      exact hscalars _ (mem_of_lookup hfound)
    · rename_i hnone
      split at h
      · cases h
        simp only [TypeHint.isWellFormed, Bool.and_eq_true, Bool.or_eq_true, beq_iff_eq] at hwf
        rcases hwf.1 with hplain | rfl
        · exact Emit.isName_escape_of_isPlainName hplain
        · cases hnone
      · cases h
  | ⟨name, [element], span⟩, type, hwf, h => by
    simp only [TypeHint.isWellFormed, TypeHint.areWellFormed, Bool.and_eq_true] at hwf
    unfold TypeName.ofHint at h
    split at h
    · cases helement : TypeName.ofHint registry element with
      | ok inner =>
        rw [helement] at h
        cases h
        have hinner := lexical_ofHint hwf.2.1 helement
        exact hinner
      | error e =>
        rw [helement] at h
        cases h
    · cases h
  | ⟨_, _ :: _ :: _, _⟩, _, _, h => nomatch h

/-! ## Attributes -/

/-- Whether an attribute has a name of its own and a well-formed type. -/
def Attribute.isWellFormed (a : Attribute) : Bool :=
  isPlainName a.name && a.hint.all TypeHint.isWellFormed

theorem isWellFormed_of_mem_attributesOf {s : Statement} (h : s.isWellFormed) (receiver : String) :
    ∀ a ∈ s.attributesOf receiver, a.isWellFormed := by
  intro a ha
  unfold Statement.attributesOf at ha
  split at ha
  · rename_i targets value span
    obtain ⟨target, htarget, ha⟩ := mem_filterMap.mp ha
    obtain ⟨name, hname, rfl⟩ := Option.map_eq_some_iff.mp ha
    simp only [Statement.isWellFormed, Assignment.isWellFormed, Bool.and_eq_true] at h
    have hwf := all_eq_true.mp h.1.2 target htarget
    simp only [Declaration.isWellFormed, Bool.and_eq_true] at hwf
    unfold Declaration.attributeOf? at hname
    split at hname
    · rename_i member memberSpan haccesses
      split at hname
      · cases hname
        rw [haccesses] at hwf
        simp [Attribute.isWellFormed, (Bool.and_eq_true_iff.mp hwf.2).1, hwf.1.2]
      · cases hname
    · cases hname
  · cases ha

theorem isWellFormed_of_mem_declaredAttributes {f : FunctionDef} (h : f.isWellFormed) :
    ∀ a ∈ f.declaredAttributes, a.isWellFormed := by
  obtain ⟨name, parameters, returnHint, body, span⟩ := f
  obtain ⟨-, hbody⟩ := Bool.and_eq_true_iff.mp h
  unfold FunctionDef.declaredAttributes
  intro a ha
  split at ha
  · rename_i receiver hreceiver
    split at ha
    · obtain ⟨s, hs, ha⟩ := mem_flatMap.mp ha
      exact isWellFormed_of_mem_attributesOf
        (Statement.areWellFormed_iff.mp hbody s hs) receiver a ha
    · cases ha
  · cases ha

/-- Entering an attribute leaves the attributes well-formed. -/
theorem isWellFormed_of_mem_enter {attributes : List Attribute} {new : Attribute}
    (h : ∀ a ∈ attributes, a.isWellFormed) (hnew : new.isWellFormed) :
    ∀ a ∈ Attribute.enter attributes new, a.isWellFormed := by
  induction attributes with
  | nil => exact forall_mem_singleton.mpr hnew
  | cons old rest ih =>
    obtain ⟨hold, hrest⟩ := forall_mem_cons.mp h
    rw [Attribute.enter]
    split
    · refine forall_mem_cons.mpr ⟨?_, hrest⟩
      simp only [Attribute.isWellFormed, Bool.and_eq_true, Option.all_eq_true] at hold hnew ⊢
      refine ⟨hold.1, fun hint hhint => ?_⟩
      rcases Option.or_eq_some_iff.mp hhint with hhint | ⟨-, hhint⟩
      · exact hold.2 hint hhint
      · exact hnew.2 hint hhint
    · exact forall_mem_cons.mpr ⟨hold, ih hrest⟩

theorem isWellFormed_of_mem_attributesOfBody {body : List Statement}
    (h : Statement.areWellFormed body) : ∀ a ∈ attributesOfBody body, a.isWellFormed := by
  have hfold (declared before : List Attribute) (hdeclared : ∀ a ∈ declared, a.isWellFormed)
      (hbefore : ∀ a ∈ before, a.isWellFormed) :
      ∀ a ∈ declared.foldl Attribute.enter before, a.isWellFormed := by
    induction declared generalizing before with
    | nil => exact hbefore
    | cons new declared ih =>
      obtain ⟨hnew, hrest⟩ := forall_mem_cons.mp hdeclared
      exact ih _ hrest (isWellFormed_of_mem_enter hbefore hnew)
  refine hfold _ [] (fun a ha => ?_) (forall_mem_nil _)
  obtain ⟨f, hf, ha⟩ := mem_flatMap.mp ha
  obtain ⟨s, hs, hfunction⟩ := mem_filterMap.mp hf
  have hwf := Statement.areWellFormed_iff.mp h s hs
  cases s with
  | function g =>
    cases hfunction
    exact isWellFormed_of_mem_declaredAttributes hwf a ha
  | _ => cases hfunction

/-! ## Layouts -/

namespace Layout

/-- A field whose name and type are names of the emitted language, and whose line starts with no
word of blocks. -/
structure IsLexicalField (field : Field) : Prop where
  name : isName field.name = true
  plain : field.name ∉ blockWords
  type : field.type.isLexical = true

/-- A layout whose names are names of the emitted language. -/
structure IsLexical (l : Layout) : Prop where
  className : isPlainName l.className = true
  superclass : ∀ s ∈ l.superclass, isName s = true
  fields : ∀ field ∈ l.fields, IsLexicalField field

theorem IsLexical.name {l : Layout} (h : l.IsLexical) : isName l.name :=
  Emit.isName_escape_of_isPlainName h.className

section Fields

variable {registry : ClassRegistry} {className : String} (hclass : isPlainName className = true)

include hclass

/-- An attribute is entered as a lexical field. -/
theorem isLexicalField_enterField {fields fields' : List Field} {a : Attribute}
    (ha : a.isWellFormed) (hfields : ∀ field ∈ fields, IsLexicalField field)
    (h : enterField registry className fields a = .ok fields') :
    ∀ field ∈ fields', IsLexicalField field := by
  obtain ⟨hname, hhint⟩ := Bool.and_eq_true_iff.mp ha
  rw [Option.all_eq_true] at hhint
  rw [enterField_eq] at h
  split at h
  · cases h
    exact hfields
  · obtain ⟨type, htype, rfl⟩ := exists_of_map_eq_ok h
    intro field hfield
    rcases mem_append.mp hfield with hfield | hfield
    · exact hfields field hfield
    · obtain rfl := mem_singleton.mp hfield
      have hword := isWord_of_isPlainName hclass
      refine ⟨isName_memberName (isWord_of_isPlainName hname) (by simpa using hword),
        Emit.memberName_not_mem_blockWords hname _, ?_⟩
      cases hint : a.hint with
      | none =>
        rw [hint] at htype
        cases htype
        rfl
      | some found =>
        rw [hint] at htype
        exact lexical_ofHint (hhint found hint) htype

theorem isLexicalField_foldlM {attributes : List Attribute} {fields fields' : List Field}
    (hattributes : ∀ a ∈ attributes, a.isWellFormed)
    (hfields : ∀ field ∈ fields, IsLexicalField field)
    (h : attributes.foldlM (enterField registry className) fields = .ok fields') :
    ∀ field ∈ fields', IsLexicalField field :=
  of_foldlM (fun fields => ∀ field ∈ fields, IsLexicalField field)
    (fun a ha _ _ => isLexicalField_enterField hclass (hattributes a ha)) hfields h

end Fields

/-- The layout of a well-formed class, behind layouts with such names. -/
theorem isLexical_ofClass {registry : ClassRegistry} {layouts : List Layout} {c : ClassDef}
    {l : Layout} (hlayouts : ∀ l ∈ layouts, IsLexical l) (hc : c.WellFormed)
    (h : ofClass registry layouts c = .ok l) : l.IsLexical := by
  obtain ⟨fields, hfields, rfl⟩ := exists_of_map_eq_ok h
  have hparent : ∀ parent ∈ c.superclass.bind fun s => layouts.find? (·.className == s),
      IsLexical parent := by
    intro parent hparent
    obtain ⟨s, -, hfind⟩ := Option.bind_eq_some_iff.mp hparent
    exact hlayouts parent (mem_of_find?_eq_some hfind)
  refine ⟨hc.name, ?_, ?_⟩
  · intro s hs
    obtain ⟨parent, hmem, rfl⟩ := Option.map_eq_some_iff.mp hs
    exact (hparent parent hmem).name
  · refine isLexicalField_foldlM hc.name ?_ ?_ hfields
    · rw [hc.attributes]
      exact isWellFormed_of_mem_attributesOfBody hc.body
    · cases hfound : c.superclass.bind fun s => layouts.find? (·.className == s) with
      | none => exact forall_mem_nil _
      | some parent => exact (hparent parent hfound).fields

/-- All layouts of well-formed classes have names of the emitted language. -/
theorem isLexical_all {registry : ClassRegistry} {layouts : List Layout}
    (hclasses : ∀ c ∈ registry.classes, c.WellFormed) (h : all registry = .ok layouts) :
    ∀ l ∈ layouts, IsLexical l := by
  refine of_foldlM (fun layouts => ∀ l ∈ layouts, IsLexical l)
    (fun c hc before next hbefore hnext => ?_)
    (forall_mem_nil _) h
  obtain ⟨l, hl, rfl⟩ := exists_of_map_eq_ok hnext
  exact forall_mem_append.mpr
    ⟨hbefore, forall_mem_singleton.mpr (isLexical_ofClass hbefore (hclasses c hc) hl)⟩

end Layout

end Offside
