import Offside.Proofs.Emit.ProgramRelocation
import Offside.Proofs.LaterClasses

/-!
# Refusals of the emission

A program that was read can still be refused when code is emitted for it, but only for some causes
(`SemanticCause.isOfEmission`).  That a class has no layout is not among them: the classes of a
program are those of the registry, and every class of the registry has a layout.  So nothing changes
if all other errors are made one of these (`isOfEmission_of_programItems`).
-/

namespace Offside.Emit

/-- All errors for other causes become one for a cause of the emission. -/
def Reporting.covering : Reporting where
  place := id
  report e := if e.cause.isOfEmission then e else ⟨.superOutsideMethod, none⟩
  report_of_isOfEmission h _ := if_pos h

theorem Reporting.isOfEmission_of_covering {e : SemanticError} (h : covering.report e = e) :
    e.cause.isOfEmission := by
  by_contra hcause
  have hreport : covering.report e = ⟨.superOutsideMethod, none⟩ := if_neg hcause
  rw [← h, hreport] at hcause
  exact hcause rfl

/-- A program whose classes are those of a registry is refused for causes of the emission only. -/
theorem isOfEmission_of_programItems {registry : ClassRegistry} {source : Program}
    (hregistry : registry.Founded) (houter : ∀ s ∈ source, s.IsOuter)
    (hclasses : registry.classes = source.filterMap Statement.class?) {e : SemanticError}
    {p : Progress} (h : programItems registry source {} = .error e p) : e.cause.isOfEmission := by
  have hcovers (layouts : List Layout) (hlayouts : Layout.all registry = .ok layouts) :
      ∀ s ∈ source, Reporting.covering.Covers { registry, layouts } s := by
    intro s hs
    refine .inr ⟨houter s hs, ?_⟩
    rintro c rfl
    have hname : c.name ∈ registry.order := by
      refine List.mem_map.mpr ⟨c, ?_, rfl⟩
      rw [hclasses]
      exact mem_filterMap_class?.mpr hs
    obtain ⟨l, hl⟩ := Layout.exists_layout hregistry hlayouts hname
    exact Option.isSome_iff_exists.mpr ⟨l, hl⟩
  -- Both tell what comes of the program at its own locations.
  have hitems := carries_programItems .covering hcovers {}
  have hfaithful := carries_programItems_faithful id registry source {}
  rw [h] at hitems hfaithful
  have hreport := (EStateM.Result.error.inj (hitems.symm.trans hfaithful)).1
  exact Reporting.isOfEmission_of_covering (hreport.trans e.relocate_id)

end Offside.Emit
