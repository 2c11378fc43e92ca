import Offside.Proofs.Emit.Dispatch
import Offside.Proofs.LayoutFlattening

/-!
# Classes that are registered later

A class is found, laid out and dispatched to by looking at the whole registry, also at the classes
that were registered after it.  None of this depends on them: what a registry fixes about its
classes stays fixed however it grows (`Grows`).  The chain of superclasses only runs through earlier
classes, and a hint that names a class names it in every larger registry.

So the target of a call of a method of a superclass is settled by the classes up to the one that
holds the call (`registers_keeps_earlier`).
-/

namespace Offside

open List Emit Target

variable {className name : String}

namespace ClassRegistry

/-! ## Growing registries -/

/-- The second registry has the classes of the first, in their order and under their names, and the
chains of superclasses of the first. -/
structure Grows (r r' : ClassRegistry) : Prop where
  classes : r.classes <+: r'.classes
  get? {name : String} (h : name ∈ r.order) : r'.get? name = r.get? name
  ancestors {name : String} (h : name ∈ r.order) : r'.ancestors name = r.ancestors name

theorem Grows.refl (r : ClassRegistry) : Grows r r := ⟨prefix_rfl, fun _ => rfl, fun _ => rfl⟩

variable {r r' : ClassRegistry}

theorem Grows.mem_order (h : Grows r r') (hname : name ∈ r.order) : name ∈ r'.order :=
  (h.classes.map ClassDef.name).subset hname

theorem Grows.trans {r r' r'' : ClassRegistry} (h : Grows r r') (h' : Grows r' r'') :
    Grows r r'' where
  classes := h.classes.trans h'.classes
  get? hname := (h'.get? (h.mem_order hname)).trans (h.get? hname)
  ancestors hname := (h'.ancestors (h.mem_order hname)).trans (h.ancestors hname)

/-- One more class changes nothing about those that are there. -/
theorem grows_of_register {c : ClassDef} (h : r.register c = .ok r') : Grows r r' := by
  obtain ⟨hnew, -, rfl⟩ := register_eq_ok_iff.mp h
  have hfree : c.name ∉ r.order := by
    intro hmem
    rw [contains_iff_mem_order.mpr hmem] at hnew
    cases hnew
  constructor
  · change r.classes <+: (c :: r.latestFirst).reverse
    rw [reverse_cons]
    exact prefix_append _ _
  · intro name hname
    have hne : c.name ≠ name := by
      intro heq
      exact hfree (heq ▸ hname)
    rw [ClassRegistry.get?, find?_cons, beq_false_of_ne hne]
    rfl
  · intro name hname
    exact chain_cons_of_mem hfree hname

theorem Registers.grows {later : List ClassDef} (h : r.Registers later r') : Grows r r' := by
  induction h with
  | nil => exact .refl _
  | cons hfirst _ ih => exact (grows_of_register hfirst).trans ih

theorem Grows.owner?_eq (h : Grows r r') (hname : name ∈ r.order) (method : String) :
    r'.owner? name method = r.owner? name method := by
  rw [owner?, owner?, h.ancestors hname]

end ClassRegistry

/-! ## Layouts -/

namespace Layout

/-- A fold whose steps have the results of those of another fold has its result. -/
theorem foldlM_eq_ok_of_imp {ε α β : Type} {f g : β → α → Except ε β} {xs : List α}
    (hfg : ∀ x ∈ xs, ∀ b b', f b x = .ok b' → g b x = .ok b') {b b' : β}
    (h : xs.foldlM f b = .ok b') : xs.foldlM g b = .ok b' := by
  induction xs generalizing b with
  | nil => exact h
  | cons x xs ih =>
    obtain ⟨hx, hxs⟩ := forall_mem_cons.mp hfg
    rw [foldlM_cons] at h ⊢
    obtain ⟨mid, hmid, h⟩ := exists_of_bind_eq_ok h
    rw [hx b mid hmid]
    exact ih hxs h

variable {layouts : List Layout}

/-- The layouts that are there stay in front of those that are made. -/
theorem prefix_of_foldlM {registry : ClassRegistry} {classes : List ClassDef}
    {layouts' : List Layout}
    (h : classes.foldlM (fun layouts c => do return layouts ++
      [← ofClass registry layouts c]) layouts =
      .ok layouts') : layouts <+: layouts' := by
  refine of_foldlM (layouts <+: ·) (fun c _ before next hbefore hnext => ?_) prefix_rfl h
  obtain ⟨l, -, rfl⟩ := exists_of_map_eq_ok hnext
  exact hbefore.trans (prefix_append before [l])

section Grows

variable {r r' : ClassRegistry} (hgrows : r.Grows r')

include hgrows

/-- A hint that stands for a type keeps standing for it.  It may name a class of the registry, but
no class takes over a name that has a type already. -/
theorem ofHint_of_grows {hint : TypeHint} {type : TypeName}
    (h : TypeName.ofHint r hint = .ok type) :
    TypeName.ofHint r' hint = .ok type := by
  fun_induction TypeName.ofHint r hint generalizing type with
  | case1 name span found hscalar =>
    rw [TypeName.ofHint, hscalar]
    exact h
  | case2 name span hscalar hname =>
    have hlater := hgrows.mem_order (ClassRegistry.contains_iff_mem_order.mp hname)
    rw [TypeName.ofHint, hscalar]
    dsimp only
    rw [if_pos (ClassRegistry.contains_iff_mem_order.mpr hlater)]
    exact h
  | case3 name span hscalar hname => cases h
  | case4 element span ih =>
    rw [TypeName.ofHint, if_pos rfl]
    cases helement : TypeName.ofHint r element with
    | ok inner =>
      rw [helement] at h
      rw [ih helement]
      exact h
    | error e =>
      rw [helement] at h
      cases h
  | case5 name element span hname => cases h
  | case6 hint _ _ => cases h

theorem enterField_of_grows {fields fields' : List Field} {a : Attribute}
    (h : enterField r className fields a = .ok fields') :
    enterField r' className fields a = .ok fields' := by
  rw [enterField_eq] at h ⊢
  by_cases hname : memberName a.name className ∈ fields.map Field.name
  · rw [if_pos hname] at h ⊢
    exact h
  · rw [if_neg hname] at h ⊢
    obtain ⟨type, htype, rfl⟩ := exists_of_map_eq_ok h
    have hlater : typeOf r' a.hint = .ok type := by
      cases hhint : a.hint with
      | none =>
        rw [hhint] at htype
        exact htype
      | some hint =>
        rw [hhint] at htype
        exact ofHint_of_grows hgrows htype
    rw [hlater]
    rfl

/-- The layout of a class does not depend on the classes behind it. -/
theorem ofClass_of_grows {c : ClassDef} (hc : c.name ∈ r.order) {l : Layout}
    (h : ofClass r layouts c = .ok l) :
    ofClass r' layouts c = .ok l := by
  unfold ofClass at h ⊢
  obtain ⟨fields, hfields, rfl⟩ := exists_of_map_eq_ok h
  have hlater := foldlM_eq_ok_of_imp (fun _ _ _ _ => enterField_of_grows hgrows) hfields
  simp only [hgrows.owner?_eq hc]
  rw [hlater]
  rfl

/-- The layouts of a registry are the first ones of every registry it grows into. -/
theorem all_prefix_of_grows {layouts' : List Layout} (h : all r = .ok layouts)
    (h' : all r' = .ok layouts') :
    layouts <+: layouts' := by
  obtain ⟨later, hlater⟩ := hgrows.classes
  unfold all at h h'
  rw [← hlater, foldlM_append] at h'
  obtain ⟨before, hbefore, h'⟩ := exists_of_bind_eq_ok h'
  have hsame : r.classes.foldlM
      (fun layouts c => do return layouts ++ [← ofClass r' layouts c]) [] = .ok layouts := by
    refine foldlM_eq_ok_of_imp ?_ h
    intro c hc layouts next hnext
    obtain ⟨l, hl, rfl⟩ := exists_of_map_eq_ok hnext
    rw [ofClass_of_grows hgrows (mem_map_of_mem hc) hl]
    rfl
  obtain rfl := Except.ok.inj (hsame.symm.trans hbefore)
  exact prefix_of_foldlM h'

end Grows

/-- Every class of a founded registry has a layout. -/
theorem exists_layout {registry : ClassRegistry} (hregistry : registry.Founded)
    (h : all registry = .ok layouts) (hname : name ∈ registry.order) :
    ∃ l, layouts.find? (·.className == name) = some l := by
  obtain ⟨hnames, -⟩ := describes_foldlM hregistry hregistry (List.Subset.refl _) h
  have hmem : name ∈ layouts.map className := by
    rw [hnames]
    exact hname
  obtain ⟨l, hl, rfl⟩ := mem_map.mp hmem
  rw [← Option.isSome_iff_exists, find?_isSome]
  exact ⟨l, hl, beq_self_eq_true _⟩

end Layout

/-! ## Calls of methods of superclasses -/

namespace Emit

/-- The code of a call of a method of a superclass: its target, and its arguments. -/
theorem exists_of_superCall {scope : Scope} {call : SuperCall} {code : Code}
    (h : superCall scope call = .ok code) :
    ∃ start target arguments, superTarget scope call.superclass call.span.start = .ok start ∧
      staticTarget scope start.2 call.method call.span.start = .ok target ∧
      code = .staticCall target.1 target.2 (nameCode start.1 :: arguments) := by
  obtain ⟨superclass, method, ⟨values, argumentsSpan⟩, span⟩ := call
  obtain ⟨start, hstart, h⟩ := exists_of_bind_eq_ok h
  obtain ⟨target, htarget, h⟩ := exists_of_bind_eq_ok h
  obtain ⟨arguments, -, rfl⟩ := exists_of_map_eq_ok h
  exact ⟨start, target, arguments, hstart, htarget, rfl⟩

section Grows

variable {r r' : ClassRegistry} (hgrows : r.Grows r') (scope : Scope)

include hgrows

theorem staticTarget_of_grows (hclass : className ∈ r.order) (method : String)
    (location : Location) :
    staticTarget { scope with registry := r' } className method location =
      staticTarget { scope with registry := r } className method location := by
  unfold staticTarget
  simp only [hgrows.owner?_eq hclass]

variable {scope}

/-- Where the method of a superclass is looked for, from a class of the smaller registry. -/
theorem superTarget_of_grows (hscope : scope.className = some className)
    (hclass : className ∈ r.order) {superclass : Option String} {location : Location}
    {start start' : String × String}
    (h : superTarget { scope with registry := r } superclass location = .ok start)
    (h' : superTarget { scope with registry := r' } superclass location = .ok start') :
    start' = start := by
  unfold superTarget at h h'
  simp only [hscope] at h h'
  cases hreceiver : scope.receiver with
  | none =>
    rw [hreceiver] at h
    cases h
  | some receiver =>
    rw [hreceiver] at h h'
    cases superclass with
    | none =>
      dsimp only at h h'
      rw [hgrows.get? hclass] at h'
      exact Except.ok.inj (h'.symm.trans h)
    | some name =>
      dsimp only at h h'
      split at h
      · split at h'
        · exact Except.ok.inj (h'.symm.trans h)
        · cases h'
      · cases h

/-- A call of a method of a superclass has the same target and the same receiver in both registries.
-/
theorem tags_superCall_of_grows (hclosed : r.IsClosed) (hscope : scope.className = some className)
    (hclass : className ∈ r.order) {call : SuperCall} {code code' : Code}
    (h : superCall { scope with registry := r } call = .ok code)
    (h' : superCall { scope with registry := r' } call = .ok code') :
    ∃ owner method receiver arguments arguments',
      code = .staticCall owner method (receiver :: arguments) ∧
      code' = .staticCall owner method (receiver :: arguments') := by
  obtain ⟨start, target, arguments, hstart, htarget, rfl⟩ := exists_of_superCall h
  obtain ⟨start', target', arguments', hstart', htarget', rfl⟩ := exists_of_superCall h'
  obtain rfl := superTarget_of_grows hgrows hscope hclass hstart hstart'
  have hcontains : ({ scope with registry := r } : Scope).registry.contains start'.2 :=
    contains_superTarget hclosed hstart
  have hknown : start'.2 ∈ r.order := ClassRegistry.contains_iff_mem_order.mp hcontains
  rw [staticTarget_of_grows hgrows scope hknown] at htarget'
  obtain rfl := Except.ok.inj (htarget.symm.trans htarget')
  exact ⟨target.1, target.2, nameCode start'.1, arguments, arguments', rfl, rfl⟩

end Grows

end Emit

/-! ## Later classes -/

namespace ClassRegistry

/-- However a registry grows, the classes that it has keep their chains of superclasses, the owners
of their methods and their layouts, and a call of a method of a superclass inside one of them keeps
its target. -/
theorem registers_keeps_earlier {r r' : ClassRegistry} {earlier later : List ClassDef}
    (hr : empty.Registers earlier r) (h : r.Registers later r') :
    (∀ c ∈ r.classes, r'.ancestors c.name = r.ancestors c.name ∧
      ∀ method, r'.owner? c.name method = r.owner? c.name method) ∧
    (∀ layouts layouts', Layout.all r = .ok layouts → Layout.all r' = .ok layouts' →
      ∀ c ∈ r.classes, ∃ l, layouts.find? (·.className == c.name) = some l ∧
        layouts'.find? (·.className == c.name) = some l) ∧
    ∀ (scope : Scope) (call : SuperCall) (code code' : Code), ∀ c ∈ r.classes,
      scope.className = some c.name → superCall { scope with registry := r } call = .ok code →
      superCall { scope with registry := r' } call = .ok code' →
      ∃ owner method receiver arguments arguments',
        code = .staticCall owner method (receiver :: arguments) ∧
        code' = .staticCall owner method (receiver :: arguments') := by
  have hgrows := h.grows
  have hclass {c : ClassDef} (hc : c ∈ r.classes) : c.name ∈ r.order := mem_map_of_mem hc
  refine ⟨?_, ?_, ?_⟩
  · intro c hc
    exact ⟨hgrows.ancestors (hclass hc), hgrows.owner?_eq (hclass hc)⟩
  · intro layouts layouts' hlayouts hlayouts' c hc
    obtain ⟨l, hl⟩ := Layout.exists_layout (hr.founded .empty) hlayouts (hclass hc)
    obtain ⟨more, rfl⟩ := Layout.all_prefix_of_grows hgrows hlayouts hlayouts'
    refine ⟨l, hl, ?_⟩
    rw [find?_append, hl, Option.some_or]
  · intro scope call code code' c hc hscope hcode hcode'
    exact tags_superCall_of_grows hgrows (hr.isClosed isClosed_empty) hscope
      (hclass hc) hcode hcode'

/-- A later subclass overrides the method that the class in the middle calls on its superclass, and
has an attribute of its own. -/
theorem registers_keeps_earlier_override :
    ∃ (base sub later : ClassDef) (layouts layouts' : List Layout) (scope : Scope)
      (call : SuperCall)
        (code code' : Code),
      later.superclass = some sub.name ∧ later.declares call.method = true ∧
      scope.className = some sub.name ∧
      empty.Registers [base, sub] ⟨[sub, base]⟩ ∧
        Registers ⟨[sub, base]⟩ [later] ⟨[later, sub, base]⟩ ∧
      Layout.all ⟨[sub, base]⟩ = .ok layouts ∧ Layout.all ⟨[later, sub, base]⟩ = .ok layouts' ∧
      (∃ l, layouts.find? (·.className == sub.name) = some l ∧
        layouts'.find? (·.className == sub.name) = some l) ∧
      superCall { scope with registry := ⟨[sub, base]⟩ } call = .ok code ∧
      superCall { scope with registry := ⟨[later, sub, base]⟩ } call = .ok code' ∧
      ∃ owner method receiver arguments arguments',
        code = .staticCall owner method (receiver :: arguments) ∧
        code' = .staticCall owner method (receiver :: arguments') := by
  let method (parameter : String) : Statement :=
    .function ⟨"f", [⟨parameter, none, none, {}⟩], none, [.pass], {}⟩
  let base : ClassDef := ⟨"A", none, [method "a"], [⟨"x", none⟩], {}⟩
  let sub : ClassDef := ⟨"B", "A", [method "b"], [⟨"y", none⟩], {}⟩
  let later : ClassDef := ⟨"C", "B", [method "c"], [⟨"z", none⟩], {}⟩
  let call : SuperCall := ⟨none, "f", ⟨[], {}⟩, {}⟩
  let scope : Scope :=
    { registry := empty, layouts := [], className := some "B", receiver := some "b" }
  have hearlier : empty.Registers [base, sub] ⟨[sub, base]⟩ := by
    have hbase : empty.register base = .ok ⟨[base]⟩ := rfl
    have hsub : register ⟨[base]⟩ sub = .ok ⟨[sub, base]⟩ := rfl
    exact .cons hbase (.cons hsub .nil)
  have hlater : Registers ⟨[sub, base]⟩ [later] ⟨[later, sub, base]⟩ := by
    have hregister : register ⟨[sub, base]⟩ later = .ok ⟨[later, sub, base]⟩ := rfl
    exact .cons hregister .nil
  obtain ⟨layouts, hlayouts⟩ : ∃ layouts, Layout.all ⟨[sub, base]⟩ = .ok layouts := ⟨_, rfl⟩
  obtain ⟨layouts', hlayouts'⟩ : ∃ layouts, Layout.all ⟨[later, sub, base]⟩ = .ok layouts :=
    ⟨_, rfl⟩
  obtain ⟨code, hcode⟩ : ∃ code,
      superCall { scope with registry := ⟨[sub, base]⟩ } call = .ok code :=
    ⟨_, rfl⟩
  obtain ⟨code', hcode'⟩ : ∃ code,
      superCall { scope with registry := ⟨[later, sub, base]⟩ } call = .ok code := ⟨_, rfl⟩
  obtain ⟨-, hlayout, htags⟩ := registers_keeps_earlier hearlier hlater
  have hmem : sub ∈ classes ⟨[sub, base]⟩ := mem_classes.mpr mem_cons_self
  exact ⟨base, sub, later, layouts, layouts', scope, call, code, code', rfl, rfl, rfl,
    hearlier, hlater,
    hlayouts, hlayouts', hlayout layouts layouts' hlayouts hlayouts' sub hmem, hcode, hcode',
    htags scope call code code' sub hmem rfl hcode hcode'⟩

end ClassRegistry

end Offside
