import Offside.Proofs.Emit.Types
import Offside.Proofs.ReservedWords

/-!
# The order of markers

A hint is mapped against all classes of a program, wherever they are defined, but the code of the
classes stands in the order of the source.  So a marker may be looked up in front of its
declaration.  A superclass is registered before the class, and its marker is never in the way: a
program is in order exactly if no hint of a function, a method or a field names a class that comes
behind it, and no class takes the name of the type of lists from the methods of lists
(`compile_markers_declared_iff`).
-/

namespace Offside

open List Target

variable {events : List TypeEvent} {source : Program} {s : Statement}

/-! ## What stands before -/

section AtEach

variable {α : Type} {P : List α → α → Prop}

/-- A property of each member of a list and of the members before it. -/
def AtEach (P : List α → α → Prop) (xs : List α) : Prop :=
  ∀ before x after, xs = before ++ x :: after → P before x

theorem atEach_nil : AtEach P [] := by
  intro before x after h
  exact absurd h.symm (append_ne_nil_of_right_ne_nil _ (cons_ne_nil _ _))

theorem atEach_cons {x : α} {xs : List α} :
    AtEach P (x :: xs) ↔ P [] x ∧ AtEach (fun before => P (x :: before)) xs := by
  constructor
  · intro h
    constructor
    · exact h [] x xs rfl
    · intro before y after hxs
      exact h (x :: before) y after (by rw [hxs, cons_append])
  · rintro ⟨hx, hxs⟩ before y after h
    cases before with
    | nil =>
      cases h
      exact hx
    | cons z before =>
      obtain ⟨rfl, hrest⟩ := cons.inj h
      exact hxs before y after hrest

theorem atEach_append {xs ys : List α} :
    AtEach P (xs ++ ys) ↔ AtEach P xs ∧ AtEach (fun before => P (xs ++ before)) ys := by
  induction xs generalizing P with
  | nil => simp [atEach_nil]
  | cons x xs ih => rw [cons_append, atEach_cons, ih, atEach_cons, and_assoc]; rfl

theorem atEach_of_forall {xs : List α} (h : ∀ before, ∀ x ∈ xs, P before x) : AtEach P xs := by
  intro before x after hsplit
  exact h before x (hsplit ▸ mem_append_right _ mem_cons_self)

end AtEach

namespace Emit

/-- If a class of the given names has its marker looked up, then this marker was declared before. -/
def IsDeclared (names : List String) (before : List TypeEvent) (e : TypeEvent) : Prop :=
  ∀ name ∈ names, e = .use (markerName (escape name)) →
    .abstractType (markerName (escape name)) ∈ before

section Steps

variable {registry : ClassRegistry} {names : List String} {known : List TypeEvent}

/-! ## Statements -/

/-- All mentions are declared exactly if the markers are known. -/
theorem Mentions.atEach_iff {classes : List String} (h : Mentions registry classes events)
    (hnames : ∀ c, registry.contains c → c ∈ names) :
    AtEach (fun before => IsDeclared names (known ++ before)) events ↔
      ∀ c ∈ classes, .abstractType (markerName (escape c)) ∈ known := by
  constructor
  · intro hall c hc
    have huse : .use (markerName (escape c)) ∈ events := (h.markers _).mpr (mem_map_of_mem hc)
    obtain ⟨before, after, hsplit⟩ := append_of_mem huse
    have hdeclared := hall before _ after hsplit c (hnames c (h.registered c hc)) rfl
    rcases mem_append.mp hdeclared with hknown | hbefore
    · exact hknown
    · -- nothing is declared among the events themselves
      obtain ⟨_, hkind⟩ := h.uses _ (hsplit ▸ mem_append_left _ hbefore)
      cases hkind
  · intro hall before e after hsplit name _ he
    have huse : .use (markerName (escape name)) ∈ events := by
      rw [hsplit, he]
      exact mem_append_right _ mem_cons_self
    obtain ⟨c, hc, hspelled⟩ := mem_map.mp ((h.markers _).mp huse)
    rw [← hspelled]
    exact mem_append_left _ (hall c hc)

theorem escape_mem_classNames_iff {name : String} :
    escape name ∈ (classNames source).map escape ↔ ∃ c, .classDef c ∈ source ∧
      escape c.name = escape name := by
  rw [mem_map]
  constructor
  · rintro ⟨_, hmem, hspelled⟩
    obtain ⟨c, hc, rfl⟩ := mem_classNames.mp hmem
    exact ⟨c, hc, hspelled⟩
  · rintro ⟨c, hc, hspelled⟩
    exact ⟨c.name, mem_classNames.mpr ⟨c, hc, rfl⟩, hspelled⟩

theorem isDeclared_classNames_iff {before : List TypeEvent} {e : TypeEvent} :
    IsDeclared (classNames source) before e ↔ ∀ c, .classDef c ∈ source →
      e = .use (markerName (escape c.name)) →
        .abstractType (markerName (escape c.name)) ∈ before := by
  constructor
  · intro h c hc
    exact h c.name (mem_classNames.mpr ⟨c, hc, rfl⟩)
  · intro h name hname
    obtain ⟨c, hc, rfl⟩ := mem_classNames.mp hname
    exact h c hc

theorem namedClasses_of_isClassFree (h : s.isClassFree) :
    s.namedClasses registry = s.signatureClasses := by
  cases s with
  | classDef c => cases h
  | _ => rfl

/-- A statement declares the marker of the class that it defines. -/
theorem Spells.abstractType_mem_iff (h : Spells registry s events) {name : String} :
    .abstractType (markerName name) ∈ events ↔ name ∈ (classNames [s]).map escape := by
  cases h with
  | classFree hfree h =>
    rw [classNames_of_isClassFree hfree]
    refine iff_of_false ?_ not_mem_nil
    intro hmem
    obtain ⟨_, hkind⟩ := h.uses _ hmem
    cases hkind
  | @classDef c fields events hfields h =>
    have hnames : classNames [.classDef c] = [c.name] := rfl
    have hevents : .abstractType (markerName name) ∉ events := by
      intro hmem
      obtain ⟨_, hkind⟩ := h.uses _ hmem
      cases hkind
    simp [hnames, hevents, markerName_inj]

/-- The markers that a statement looks up were declared exactly if those of the classes that its
hints name were, or are declared by itself. -/
theorem Spells.atEach_iff (h : Spells registry s events)
    (hnames : ∀ c, registry.contains c → c ∈ names)
    (hsuper : ∀ c, s = .classDef c →
      ∀ t ∈ c.superclass, .abstractType (markerName (escape t)) ∈ known) :
    AtEach (fun before => IsDeclared names (known ++ before)) events ↔
      ∀ name ∈ s.namedClasses registry,
        .abstractType (markerName (escape name)) ∈ known ∨
          escape name ∈ (classNames [s]).map escape := by
  cases h with
  | classFree hfree h =>
    rw [h.atEach_iff hnames, namedClasses_of_isClassFree hfree, classNames_of_isClassFree hfree]
    simp
  | @classDef c fields events hfields h =>
    have hsupers : AtEach (fun before => IsDeclared names (known ++ before))
        (c.superclass.toList.map fun t => .use (markerName (escape t))) := by
      apply atEach_of_forall
      intro before e he name _ hname
      obtain ⟨t, ht, rfl⟩ := mem_map.mp he
      rw [← TypeEvent.use.inj hname]
      exact mem_append_left _ (hsuper c rfl t (Option.mem_toList.mp ht))
    have hlist (before : List TypeEvent) : known ++
        ((c.superclass.toList.map fun t => .use (markerName (escape t))) ++
          .abstractType (markerName (escape c.name)) ::
          .record (escape c.name) (tableField :: fields.map Field.name) :: before) =
        (known ++ (c.superclass.toList.map fun t => .use (markerName (escape t))) ++
          [.abstractType (markerName (escape c.name)),
            .record (escape c.name) (tableField :: fields.map Field.name)]) ++ before := by
      simp
    have hdeclares (name : String) : .abstractType (markerName (escape name)) ∈
        known ++ (c.superclass.toList.map fun t => .use (markerName (escape t))) ++
          [.abstractType (markerName (escape c.name)),
            .record (escape c.name) (tableField :: fields.map Field.name)] ↔
        .abstractType (markerName (escape name)) ∈ known ∨
          escape name ∈ (classNames [.classDef c]).map escape := by
      have hown : (classNames [.classDef c]).map escape = [escape c.name] := rfl
      simp [hown, markerName_inj]
    rw [atEach_append, atEach_cons, atEach_cons]
    simp only [hlist]
    rw [h.atEach_iff hnames]
    simp only [hdeclares]
    constructor
    · rintro ⟨-, -, -, hall⟩ name hname
      exact hall name (mem_cons_of_mem _ hname)
    · intro hall
      refine ⟨hsupers, nofun, nofun, ?_⟩
      intro name hname
      rcases mem_cons.mp hname with rfl | hname
      · exact .inr mem_cons_self
      · exact hall name hname

/-! ## Programs -/

/-- A run over the statements of a program, behind those that declared what is known. -/
theorem atEach_flatten_iff (hnames : ∀ c, registry.contains c → c ∈ names)
    {parts : List (List TypeEvent)} (h : List.Forall₂ (Spells registry) source parts)
    {earlier : Program}
    (hknown : ∀ name, .abstractType (markerName name) ∈ known ↔
      name ∈ (classNames earlier).map escape)
    (hsuper : AtEach (fun before s => ∀ c, s = .classDef c → ∀ t ∈ c.superclass,
      t ∈ classNames (earlier ++ before)) source) :
    AtEach (fun before => IsDeclared names (known ++ before)) parts.flatten ↔
      AtEach (fun before s => ∀ name ∈ s.namedClasses registry,
        escape name ∈ (classNames (earlier ++ before ++ [s])).map escape) source := by
  induction h generalizing known earlier with
  | nil => exact iff_of_true atEach_nil atEach_nil
  | @cons s events source parts hfirst hrest ih =>
    rw [atEach_cons] at hsuper
    obtain ⟨hsuper, hsupers⟩ := hsuper
    have hmarkers : ∀ c, s = .classDef c →
        ∀ t ∈ c.superclass, .abstractType (markerName (escape t)) ∈ known := by
      intro c hc t ht
      rw [hknown]
      simpa using mem_map_of_mem (hsuper c hc t ht)
    have hstep := hfirst.atEach_iff hnames hmarkers
    have hknown' (name : String) : .abstractType (markerName name) ∈ known ++ events ↔
        name ∈ (classNames (earlier ++ [s])).map escape := by
      rw [mem_append, hknown, hfirst.abstractType_mem_iff, classNames_append,
        map_append, mem_append]
    have hrun := @ih (known ++ events) (earlier ++ [s]) hknown' (by simpa using hsupers)
    rw [flatten_cons, atEach_append, atEach_cons, hstep]
    simp only [append_assoc] at hrun ⊢
    rw [hrun]
    apply and_congr
    · simp only [hknown, classNames_append, nil_append, map_append, mem_append]
    · exact Iff.rfl

/-- What stands in front of a program looks up the marker of a class exactly if the class has the
name of the type of lists. -/
theorem atEach_frontEvents_iff :
    AtEach (IsDeclared names) (frontEvents registry) ↔
      (shadowedMethods registry ≠ [] → "Vector" ∉ names) := by
  constructor
  · intro hall hsome hvector
    have huse : .use "AbstractVector" ∈ frontEvents registry :=
      mem_frontEvents.mpr ⟨hsome, .inr rfl⟩
    obtain ⟨before, after, hsplit⟩ := append_of_mem huse
    have hdeclared := hall before _ after hsplit "Vector" hvector (by decide)
    have hmem : .abstractType (markerName (escape "Vector")) ∈ frontEvents registry :=
      hsplit ▸ mem_append_left _ hdeclared
    rcases (mem_frontEvents.mp hmem).2 with hkind | hkind <;> cases hkind
  · intro hnone
    apply atEach_of_forall
    intro before e he name hname huse
    obtain ⟨hsome, hkind⟩ := mem_frontEvents.mp he
    rcases hkind with rfl | rfl
    · exact absurd (TypeEvent.use.inj huse).symm (markerName_ne (by decide) _)
    · have hspelled : escape name = escape "Vector" :=
        markerName_inj.mp ((TypeEvent.use.inj huse).symm.trans (by decide))
      have hwords : ∀ word ∈ reservedWords, "Vector" ≠ word ++ "_" := by decide
      rcases escape_eq_escape_iff.mp hspelled with rfl | ⟨hword, heq⟩ | ⟨hword, -⟩
      · exact absurd hname (hnone hsome)
      · exact absurd heq (hwords name hword)
      · exact absurd hword (by decide)

end Steps

end Emit

/-- In the code of a text that is compiled, every marker that is looked up was declared before,
exactly if each class that a hint of a function, a method or a field names is defined by a statement
before or by the statement itself (or has its spelling in common with such a class), and, if the
methods of lists are put in front of the program, no class has the name of the type of lists. -/
theorem compile_markers_declared_iff {text code : String} (h : compile text = .ok code) :
    ∃ program items, (readProgram text).result = .ok program ∧
      (Emit.program (readProgram text).registry program).items = .ok items ∧
      code = Item.programText items ∧
      ((∀ before e after, Item.allTypeEvents items = before ++ e :: after →
          ∀ c, .classDef c ∈ program → e = .use (markerName (escape c.name)) →
            .abstractType (markerName (escape c.name)) ∈ before) ↔
        (∀ before s after, program = before ++ s :: after →
          ∀ name ∈ s.namedClasses (readProgram text).registry,
            ∃ c, .classDef c ∈ before ++ [s] ∧ escape c.name = escape name) ∧
        (Emit.shadowedMethods (readProgram text).registry ≠ [] →
          ∀ c, .classDef c ∈ program → c.name ≠ "Vector")) := by
  obtain ⟨program, items, parts, hread, hitems, hcode, hparts, hevents⟩ := spells_of_compile h
  obtain ⟨hregisters, -⟩ := registers_of_readProgram hread
  have hnames : ∀ c, (readProgram text).registry.contains c = true → c ∈ classNames program := by
    intro c hc
    rw [ClassRegistry.contains_iff_mem_order, ClassRegistry.order, hregisters.classes_eq] at hc
    exact hc
  have hknown (name : String) : .abstractType (markerName name) ∈
      Emit.frontEvents (readProgram text).registry ↔ name ∈ (classNames []).map escape := by
    refine iff_of_false ?_ not_mem_nil
    intro hmem
    rcases (Emit.mem_frontEvents.mp hmem).2 with hkind | hkind <;> cases hkind
  have hsuper : AtEach (fun before s => ∀ c, s = .classDef c → ∀ t ∈ c.superclass,
      t ∈ classNames ([] ++ before)) program := by
    rintro before _ after hsplit c rfl
    exact (wellFormed_of_readProgram hread).superclasses before c after hsplit
  have hrun := Emit.atEach_flatten_iff hnames hparts hknown hsuper
  refine ⟨program, items, hread, hitems, hcode, ?_⟩
  calc (∀ before e after, Item.allTypeEvents items = before ++ e :: after →
        ∀ c, .classDef c ∈ program → e = .use (markerName (escape c.name)) →
          .abstractType (markerName (escape c.name)) ∈ before)
      ↔ AtEach (Emit.IsDeclared (classNames program)) (Item.allTypeEvents items) := by
        simp only [AtEach, Emit.isDeclared_classNames_iff]
    _ ↔ (Emit.shadowedMethods (readProgram text).registry ≠ [] → "Vector" ∉ classNames program) ∧
        AtEach (fun before s => ∀ name ∈ s.namedClasses (readProgram text).registry,
          escape name ∈ (classNames ([] ++ before ++ [s])).map escape) program := by
        rw [hevents, atEach_append, Emit.atEach_frontEvents_iff, hrun]
    _ ↔ _ := by
        simp only [AtEach, Emit.escape_mem_classNames_iff, mem_classNames, not_exists, not_and,
          nil_append]
        exact and_comm

/-- A function in front of the class that its hint names looks up the marker before it is declared.
-/
theorem compile_marker_early :
    ∃ text code program items, text = "def f(p: P):\n    pass\nclass P:\n    pass\n" ∧
      compile text = .ok code ∧ (readProgram text).result = .ok program ∧
      (Emit.program (readProgram text).registry program).items = .ok items ∧
      code = Item.programText items ∧
      ∃ before e after c, Item.allTypeEvents items = before ++ e :: after ∧ .classDef c ∈ program ∧
        e = .use (markerName (escape c.name)) ∧
        .abstractType (markerName (escape c.name)) ∉ before := by
  obtain ⟨text, htext⟩ : ∃ text, text = "def f(p: P):\n    pass\nclass P:\n    pass\n" := ⟨_, rfl⟩
  have hevents : (compiled? text fun program items =>
        (classNames program, (Item.allTypeEvents items).head?)) =
      some (["P"], some (.use "AbstractP")) := by
    subst htext
    decide +kernel
  obtain ⟨program, items, hread, hitems, hcompile, hevents⟩ := exists_of_compiled? hevents
  obtain ⟨hnames, hhead⟩ := Prod.mk.inj hevents
  obtain ⟨after, hafter⟩ := head?_eq_some_iff.mp hhead
  obtain ⟨c, hc, hname⟩ :=
    mem_classNames.mp (hnames ▸ mem_cons_self : "P" ∈ classNames program)
  refine ⟨text, _, program, items, htext, hcompile, hread, hitems, rfl, [], _, after, c,
    hafter, hc, ?_,
    not_mem_nil⟩
  rw [hname]
  decide

/-- A class whose methods and fields name the class itself, with a function behind it. -/
theorem compile_markers_declared_recursive :
    ∃ text code program items, text = "class A:\n    def __init__(self, next: A):\n" ++
        "        self.next: A = next\n    def all(self) -> list[A]:\n        return [self]\n" ++
        "def f(a: A):\n    pass\n" ∧
      compile text = .ok code ∧ (readProgram text).result = .ok program ∧
        code = Item.programText items ∧
      (program.flatMap (·.namedClasses (readProgram text).registry)) = ["A", "A", "A", "A"] ∧
      ∀ before e after, Item.allTypeEvents items = before ++ e :: after →
        ∀ c, .classDef c ∈ program → e = .use (markerName (escape c.name)) →
          .abstractType (markerName (escape c.name)) ∈ before := by
  generalize htext : (_ ++ _ : String) = text
  have hvalues : (compiled? text fun program _ =>
        (program.flatMap (·.namedClasses (readProgram text).registry),
          (classNames (program.take 1), Emit.shadowedMethods (readProgram text).registry))) =
      some (["A", "A", "A", "A"], ["A"], []) := by
    subst htext
    decide +kernel
  obtain ⟨program, items, hread, hitems, hcompile, hvalues⟩ := exists_of_compiled? hvalues
  obtain ⟨hnamed, hvalues⟩ := Prod.mk.inj hvalues
  obtain ⟨hfirst, hshadowed⟩ := Prod.mk.inj hvalues
  obtain ⟨program', items', hread', hitems', -, hiff⟩ := compile_markers_declared_iff hcompile
  cases hread.symm.trans hread'
  cases hitems.symm.trans hitems'
  refine ⟨text, _, program, items, rfl, hcompile, hread, rfl, hnamed, hiff.mpr ⟨?_, ?_⟩⟩
  · intro before s after hsplit name hname
    -- the class is defined by the first statement
    have hmem : name ∈ program.flatMap (·.namedClasses (readProgram text).registry) :=
      mem_flatMap.mpr ⟨s, by simp [hsplit], hname⟩
    obtain rfl : name = "A" := by simpa [hnamed] using hmem
    obtain ⟨c, hc, hspelled⟩ :=
      mem_classNames.mp (hfirst ▸ mem_cons_self : "A" ∈ classNames (program.take 1))
    refine ⟨c, ?_, by rw [hspelled]⟩
    have hprefix : program.take 1 <+: before ++ [s] := by
      rw [hsplit]
      cases before <;> simp
    exact hprefix.subset hc
  · intro hsome
    exact absurd hshadowed hsome

end Offside
