import Offside.Proofs.InitializerReturns

/-!
# Overloads by the number of arguments

Methods of a class that share their name differ in the number of their parameters, and the emitted
form of a method keeps the parameters and which of them have default values.  But a default value
defines the form for fewer arguments too.  So the forms of two such methods share a number of
arguments exactly if neither requires more arguments than the other takes
(`compile_overloads_overlap_iff`).
-/

namespace Offside

open List Target Emit

/-- The number of entries in front of those at the end that may be left out. -/
def requiredCount (optional : List Bool) : Nat := (optional.reverse.dropWhile id).length

/-- A function is defined for a number of arguments: it has so many parameters, or more, of which
the last ones have default values. -/
def Target.Signature.Takes (s : Signature) (count : Nat) : Prop :=
  requiredCount (s.formals.map (·.default?.isSome)) ≤ count ∧ count ≤ s.formals.length

/-- The least number of arguments of a method, its receiver among them. -/
def FunctionDef.required (f : FunctionDef) : Nat :=
  requiredCount (f.parameters.map (·.default.isSome))

theorem requiredCount_le_length (optional : List Bool) :
    requiredCount optional ≤ optional.length := by
  have hle := (dropWhile_sublist id (l := optional.reverse)).length_le
  rwa [length_reverse] at hle

/-- An entry in front that may not be left out. -/
theorem requiredCount_cons_false (optional : List Bool) :
    requiredCount (false :: optional) = requiredCount optional + 1 := by
  rw [requiredCount, reverse_cons, dropWhile_append]
  split
  · rename_i hempty
    rw [requiredCount, isEmpty_iff.mp hempty]
    rfl
  · rw [length_append]
    rfl

theorem FunctionDef.required_le_arity (f : FunctionDef) : f.required ≤ f.arity := by
  have hle := requiredCount_le_length (f.parameters.map (·.default.isSome))
  rwa [length_map] at hle

namespace Emit

variable {scope : Scope}

theorem isSome_of_defaultCode {value : Option Expression} {default : Option Code}
    (h : defaultCode scope value = .ok default) : default.isSome = value.isSome := by
  cases value with
  | none =>
    cases h
    rfl
  | some e =>
    obtain ⟨code, -, rfl⟩ := exists_of_map_eq_ok h
    rfl

variable {formals : List Formal} {marker : TypeName}

/-- The emitted parameters of a method have default values where those of the method have them. -/
theorem defaults_of_methodFormals {parameters : List Parameter}
    (h : methodFormals scope marker parameters = .ok formals) :
    formals.map (·.default?.isSome) = parameters.map (·.default.isSome) := by
  have hformals : ∀ {rest : List Parameter} {formals : List Formal},
    rest.mapM (formal scope) = .ok formals →
      formals.map (·.default?.isSome) = rest.map (·.default.isSome) := by
    intro rest
    induction rest with
    | nil =>
      intro formals h
      cases h
      rfl
    | cons parameter rest ih =>
      intro formals h
      rw [mapM_cons] at h
      obtain ⟨first, others, hfirst, hothers, rfl⟩ := exists_of_map₂_eq_ok h
      obtain ⟨type, default, -, hdefault, rfl⟩ := exists_of_map₂_eq_ok hfirst
      rw [map_cons, map_cons, ih hothers, ← isSome_of_defaultCode hdefault]
      rfl
  cases parameters with
  | nil =>
    cases h
    rfl
  | cons receiver rest =>
    obtain ⟨default, others, hdefault, hothers, rfl⟩ := exists_of_map₂_eq_ok h
    rw [map_cons, map_cons, hformals hothers, ← isSome_of_defaultCode hdefault]
    rfl

theorem length_of_methodFormals {f : FunctionDef}
    (h : methodFormals scope marker f.parameters = .ok formals) :
    formals.length = f.arity := by
  have hlengths := congrArg length (defaults_of_methodFormals h)
  rwa [length_map, length_map] at hlengths

/-- The form of a method that its class has takes the arguments of the method behind two tags. -/
theorem takes_staticForm_iff {f : FunctionDef}
    (h : methodFormals scope marker f.parameters = .ok formals) (owner method : String)
    (returns : Option TypeName) (count : Nat) :
    Signature.Takes ⟨staticName, .tag owner :: .tag method :: formals, returns⟩ count ↔
      f.required + 2 ≤ count ∧ count ≤ f.arity + 2 := by
  have hrequired : requiredCount
      ((Formal.tag owner :: .tag method :: formals).map (·.default?.isSome)) = f.required + 2 := by
    rw [map_cons, map_cons, defaults_of_methodFormals h]
    exact (requiredCount_cons_false _).trans (congrArg (· + 1) (requiredCount_cons_false _))
  rw [Signature.Takes, hrequired, length_cons, length_cons, length_of_methodFormals h]

end Emit

/-- Two methods of a class that share their name have different numbers of parameters, and both have
a form that their class has itself, under the same tags.  There is a number of arguments that both
forms are defined for exactly if each method requires no more arguments than the other takes. -/
theorem compile_overloads_overlap_iff {text code : String} (h : compile text = .ok code) :
    ∃ program items, (readProgram text).result = .ok program ∧
      (Emit.program (readProgram text).registry program).items = .ok items ∧
        code = Item.programText items ∧
      ∀ c f g, .classDef c ∈ program → [f, g].Sublist c.methods → f.name = g.name →
        f.arity ≠ g.arity ∧
        ∃ s t body body', .function s body ∈ items ∧ .function t body' ∈ items ∧
          s.name = staticName ∧ t.name = staticName ∧
          s.formals.take 2 = [.tag (escape c.name), .tag (memberName f.name c.name)] ∧
          t.formals.take 2 = s.formals.take 2 ∧
          s.formals.length = f.arity + 2 ∧ t.formals.length = g.arity + 2 ∧
          ((∃ count, s.Takes count ∧ t.Takes count) ↔ f.required ≤ g.arity ∧
            g.required ≤ f.arity) := by
  obtain ⟨program, items, hread, hitems, rfl⟩ := compile_eq_ok_iff.mp h
  obtain ⟨p', hprogram⟩ := programItems_of_program hitems
  obtain ⟨layouts, inner, -, hinner, rfl⟩ := exists_of_programItems hprogram
  refine ⟨program, _, hread, hitems, rfl, ?_⟩
  intro c f g hc hmethods hname
  have hwell : c.WellFormed := by
    rcases (wellFormed_of_readProgram hread).statements _ hc with hfree | ⟨d, hd, hwell⟩
    · cases hfree
    · cases hd
      exact hwell
  have harity : f.arity ≠ g.arity := by
    have hnodup : ([f, g].map fun method => (method.name, method.arity)).Nodup :=
      (hmethods.map _).nodup hwell.signatures
    intro heq
    simp [hname, heq] at hnodup
  obtain ⟨before, after, found, hfound, hsub⟩ := exists_of_mem_statements hinner hc
  obtain ⟨l, mid, more, -, hclass, hmore, rfl⟩ := exists_of_classDef hfound
  obtain ⟨formals, returns, body, -, -, hformals, -, -, hmem, -⟩ :=
    exists_of_mem_methods hmore (hmethods.subset (by simp : f ∈ [f, g]))
  obtain ⟨formals', returns', body', -, -, hformals', -, -, hmem', -⟩ :=
    exists_of_mem_methods hmore (hmethods.subset (by simp : g ∈ [f, g]))
  have hinside : ∀ {item}, item ∈ more →
    item ∈ importItems inner ++ shadowedItems (readProgram text).registry ++
      inner := fun hitem => mem_append_right _ (hsub (mem_append_right _ hitem))
  refine ⟨harity, _, _, _, _, hinside hmem, hinside hmem', rfl, rfl, ?_, ?_, ?_, ?_, ?_⟩
  · rw [hclass, Layout.name, hclass]
    rfl
  · rw [hname]
    rfl
  · exact congrArg (· + 2) (length_of_methodFormals hformals)
  · exact congrArg (· + 2) (length_of_methodFormals hformals')
  · simp only [takes_staticForm_iff hformals, takes_staticForm_iff hformals']
    have hf := f.required_le_arity
    have hg := g.required_le_arity
    constructor
    · rintro ⟨count, htakes, htakes'⟩
      omega
    · intro hboth
      exact ⟨min f.arity g.arity + 2, by omega, by omega⟩

/-- Without default values the forms of two methods share no number of arguments. -/
theorem compile_overloads_apart :
    ∃ text code program items c f g s t body body',
      text = "class A:\n    def f(self, x):\n        pass\n    def f(self, x, y):\n        pass\n" ∧
      compile text = .ok code ∧ (readProgram text).result = .ok program ∧
        code = Item.programText items ∧
      .classDef c ∈ program ∧ [f, g].Sublist c.methods ∧ f.name = g.name ∧
      .function s body ∈ items ∧ .function t body' ∈ items ∧ s.name = staticName ∧
      t.formals.take 2 = s.formals.take 2 ∧ s.formals.length = 4 ∧ t.formals.length = 5 ∧
      ¬∃ count, s.Takes count ∧ t.Takes count := by
  obtain ⟨text, htext⟩ : ∃ text, text =
      "class A:\n    def f(self, x):\n        pass\n    def f(self, x, y):\n        pass\n" :=
        ⟨_, rfl⟩
  have hvalues : (compiled? text fun program _ =>
        (program.filterMap Statement.class?).map fun c =>
          c.methods.map fun f => (f.name, f.arity, f.required)) =
      some [[("f", 2, 2), ("f", 3, 3)]] := by
    subst htext
    decide +kernel
  obtain ⟨program, items, hread, hitems, hcompile, hvalues⟩ := exists_of_compiled? hvalues
  obtain ⟨program', items', hread', hitems', -, hoverloads⟩ :=
    compile_overloads_overlap_iff hcompile
  cases hread.symm.trans hread'
  cases hitems.symm.trans hitems'
  obtain ⟨c, hc, hmethods⟩ := mem_map.mp (hvalues ▸ mem_singleton_self _)
  obtain ⟨f, g, hmethods, ⟨hfname, hfarity, hfrequired⟩, hgname, hgarity, hgrequired⟩ :
      ∃ f g, c.methods = [f, g] ∧ (f.name = "f" ∧ f.arity = 2 ∧ f.required = 2) ∧
        g.name = "f" ∧ g.arity = 3 ∧ g.required = 3 := by
    simpa [map_eq_cons_iff, Prod.mk.injEq] using hmethods
  have hsublist : [f, g].Sublist c.methods := hmethods ▸ List.Sublist.refl _
  have hc := mem_filterMap_class?.mp hc
  obtain ⟨-, s, t, body, body', hs, ht, hname, -, -, htags, hlength, hlength', hiff⟩ :=
    hoverloads c f g hc hsublist (hfname.trans hgname.symm)
  rw [hfarity] at hlength
  rw [hgarity] at hlength'
  refine ⟨text, _, program, items, c, f, g, s, t, body, body', htext, hcompile, hread, rfl, hc,
    hsublist, hfname.trans hgname.symm, hs, ht, hname, htags, hlength, hlength', fun hboth => ?_⟩
  have hrequired := (hiff.mp hboth).2
  omega

/-- The signature of a form of a method `f` that a class `A` has itself. -/
def staticForm? : Item → Option Signature
  | .function ⟨name, .tag "A" :: .tag "f" :: formals, returns⟩ _ =>
    if name = staticName then some ⟨name, .tag "A" :: .tag "f" :: formals, returns⟩ else none
  | _ => none

/-- A method with a default value is defined for the number of arguments of another one. -/
theorem compile_overloads_shared :
    ∃ text items,
      text =
        "class A:\n    def f(self, x):\n        pass\n    def f(self, x, y=1):\n        pass\n" ∧
      compile text = .ok (Item.programText items) ∧
      ∃ s t, [s, t] = items.filterMap staticForm? ∧ s.formals.length = 4 ∧ t.formals.length = 5 ∧
        s.Takes 4 ∧ t.Takes 4 := by
  obtain ⟨text, htext⟩ : ∃ text, text =
      "class A:\n    def f(self, x):\n        pass\n    def f(self, x, y=1):\n        pass\n" :=
        ⟨_, rfl⟩
  have hvalues : (compiled? text fun _ items =>
        (items.filterMap staticForm?).map fun s =>
          (s.formals.length, requiredCount (s.formals.map (·.default?.isSome)))) =
      some [(4, 4), (5, 4)] := by
    subst htext
    decide +kernel
  obtain ⟨program, items, hread, hitems, hcompile, hvalues⟩ := exists_of_compiled? hvalues
  obtain ⟨s, t, hforms, ⟨hs, hs'⟩, ht, ht'⟩ : ∃ s t, items.filterMap staticForm? = [s, t] ∧
      (s.formals.length = 4 ∧ requiredCount (s.formals.map (·.default?.isSome)) = 4) ∧
      t.formals.length = 5 ∧ requiredCount (t.formals.map (·.default?.isSome)) = 4 := by
    simpa [map_eq_cons_iff, Prod.mk.injEq] using hvalues
  exact ⟨text, items, htext, hcompile, s, t, hforms.symm, hs, ht,
    ⟨Nat.le_of_eq hs', Nat.le_of_eq hs.symm⟩, Nat.le_of_eq ht', by omega⟩

end Offside
