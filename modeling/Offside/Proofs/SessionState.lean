import Mathlib.Data.List.Nodup
import Offside.Proofs.ReadingVariation
import Offside.Session

/-!
# The state of a session over whole runs

A session is used for any number of steps: a text is cut into tokens, a program is read or a name is
entered, and the first two of these may fail half-way.  All that a step does to the table is to
enter names (`Session.exists_names_apply`), so the table grows at its end, no name is in it twice,
and handles keep their names.  All that a step does to the classes is to replace them by those of a
program that it read (`Session.registry_apply`).  Over whole runs this is `Session.after_keeps`.
-/

namespace Offside

/-! ## Handles -/

namespace NameTable

theorem names_prefix_internAll (t : NameTable) (names : List String) :
    t.names <+: (t.internAll names).names := by
  rw [names_internAll]
  exact List.prefix_append _ _

theorem nodup_names_intern {t : NameTable} (h : t.names.Nodup) (name : String) :
    (t.intern name).names.Nodup := by
  by_cases hname : name ∈ t.names
  · rwa [intern_eq_self hname]
  · rw [names_intern_of_notMem hname]
    simpa using List.Nodup.concat hname h

theorem nodup_names_internAll {t : NameTable} (h : t.names.Nodup) (names : List String) :
    (t.internAll names).names.Nodup := by
  induction names generalizing t with
  | nil => exact h
  | cons name names ih => exact ih (nodup_names_intern h name)

/-- A name that is in the table once has one handle, and the handle leads back to it. -/
theorem resolve?_eq_some_iff {t : NameTable} (h : t.names.Nodup) {handle : Nat} {name : String} :
    t.resolve? handle = some name ↔ t.handle? name = some handle := by
  rw [resolve?, handle?, List.idxOf?_eq_some_iff, List.getElem?_eq_some_iff]
  constructor
  · rintro ⟨hlt, rfl⟩
    refine ⟨hlt, rfl, fun other hother heq => ?_⟩
    exact Nat.ne_of_lt hother ((h.getElem_inj_iff).mp heq)
  · rintro ⟨hlt, hname, -⟩
    exact ⟨hlt, hname⟩

/-- A handle keeps its name in every table that starts with the same names. -/
theorem resolve?_of_prefix {t t' : NameTable} (h : t.names <+: t'.names) {handle : Nat}
    {name : String} (hname : t.resolve? handle = some name) : t'.resolve? handle = some name := by
  obtain ⟨hlt, rfl⟩ := List.getElem?_eq_some_iff.mp hname
  exact List.prefix_iff_getElem?.mp h handle hlt

/-- A name may be entered before or behind those of another table. -/
theorem internAll_intern (t more : NameTable) (name : String) :
    t.internAll (more.intern name).names = (t.internAll more.names).intern name := by
  by_cases h : name ∈ more.names
  · have hmem : name ∈ (t.internAll more.names).names := by
      rw [names_internAll, List.mem_append, List.mem_eraseDups, List.mem_filter]
      by_cases hname : name ∈ t.names
      · exact .inl hname
      · exact .inr ⟨h, decide_eq_true hname⟩
    rw [intern_eq_self h, intern_eq_self hmem]
  · rw [names_intern_of_notMem h, internAll_append]
    rfl

end NameTable

/-- The second table holds earlier names; all else is the same. -/
def Variation.history (earlier : NameTable) : Variation :=
  { Variation.same with
    names := fun t => earlier.internAll t.names
    names_intern := earlier.internAll_intern }

/-- A text that is cut into tokens does nothing to the names before it but enter further ones. -/
theorem names_tokenize_eq (text : String) (names : NameTable) :
    (tokenize text names).2 = names.internAll (tokenize text).2.names := by
  have hagree := tokenize_alike (v := .history names) (.refl (fun _ => rfl) text.toList) {}
  change Agree _ _ _ _ _ (tokenize text names) at hagree
  generalize tokenize text {} = alone at hagree ⊢
  generalize tokenize text names = scanned at hagree ⊢
  cases hagree with
  | ok htokens hnames => exact hnames
  | error he hnames => exact hnames

/-- Nor does a text that is read. -/
theorem names_readProgram_eq (text : String) (names : NameTable) :
    (readProgram text names).names = names.internAll (readProgram text).names.names := by
  have hreading := readProgram_alike (v := .history names) (.refl (fun _ => rfl) text.toList) {}
  exact (congrArg Reading.names hreading).symm

namespace Session

/-! ## Steps -/

/-- What is asked of a session. -/
inductive Step
  | tokenize (text : String)
  | read (text : String)
  | intern (name : String)

/-- The session behind a step, whether the step succeeds or fails. -/
def apply (s : Session) : Step → Session
  | .tokenize text => (s.tokenize text).2
  | .read text => (s.read text).2
  | .intern name => s.intern name

/-- The session behind some steps. -/
def after (s : Session) (steps : List Step) : Session := steps.foldl apply s

/-- The classes that a step returns: those of a program that is read without an error. -/
def returned? (s : Session) : Step → Option ClassRegistry
  | .read text =>
    match (readProgram text s.names).result with
    | .ok _ => some (readProgram text s.names).registry
    | .error _ => none
  | _ => none

/-- The classes that some steps return, in order. -/
def returned : Session → List Step → List ClassRegistry
  | _, [] => []
  | s, step :: rest => (s.returned? step).toList ++ (s.apply step).returned rest

theorem names_read (s : Session) (text : String) :
    (s.read text).2.names = (readProgram text s.names).names := by
  unfold read
  dsimp only
  cases (readProgram text s.names).result with
  | ok program => rfl
  | error e => rfl

/-- A step enters names and does nothing else to the table. -/
theorem exists_names_apply (s : Session) (step : Step) :
    ∃ names, (s.apply step).names = s.names.internAll names := by
  cases step with
  | tokenize text => exact ⟨_, names_tokenize_eq text s.names⟩
  | read text => exact ⟨_, (names_read s text).trans (names_readProgram_eq text s.names)⟩
  | intern name => exact ⟨[name], rfl⟩

/-- A step that reads a program replaces the classes, and every other step keeps them. -/
theorem registry_apply (s : Session) (step : Step) :
    (s.apply step).registry = (s.returned? step).getD s.registry := by
  cases step with
  | read text =>
    change (s.read text).2.registry = _
    unfold read returned?
    dsimp only
    cases (readProgram text s.names).result with
    | ok program => rfl
    | error e => rfl
  | _ => rfl

/-! ## Runs -/

theorem after_append (s : Session) (steps more : List Step) :
    s.after (steps ++ more) = (s.after steps).after more :=
  List.foldl_append

theorem exists_names_after (s : Session) (steps : List Step) :
    ∃ names, (s.after steps).names = s.names.internAll names := by
  induction steps generalizing s with
  | nil => exact ⟨[], rfl⟩
  | cons step steps ih =>
    obtain ⟨names, hnames⟩ := s.exists_names_apply step
    obtain ⟨more, hmore⟩ := ih (s.apply step)
    refine ⟨names ++ more, ?_⟩
    rw [NameTable.internAll_append, ← hnames]
    exact hmore

theorem registry_after (s : Session) (steps : List Step) :
    (s.after steps).registry = (s.returned steps).getLastD s.registry := by
  induction steps generalizing s with
  | nil => rfl
  | cons step steps ih =>
    have hrest := ih (s.apply step)
    rw [registry_apply] at hrest
    rw [returned]
    cases hstep : s.returned? step with
    | none =>
      rw [hstep] at hrest
      exact hrest
    | some registry =>
      rw [hstep] at hrest
      exact hrest.trans (List.getLastD_cons).symm

theorem nodup_names_after (steps : List Step) : (empty.after steps).names.names.Nodup := by
  obtain ⟨names, hnames⟩ := empty.exists_names_after steps
  rw [hnames]
  exact NameTable.nodup_names_internAll List.nodup_nil names

/-- Whatever is done in a session, and whatever of it fails, handles and names stand for each other,
and no later step changes that: the table only grows, at its end.  A text that is cut into tokens
enters the identifiers among its tokens that are new, each once and in the order in which they are
first met.  The classes are those that the last successful reading of a program returned. -/
theorem after_keeps (steps more : List Step) :
    let s := empty.after steps
    let later := empty.after (steps ++ more)
    s.names.names <+: later.names.names ∧
      (∀ handle name, s.names.resolve? handle = some name ↔ s.names.handle? name = some handle) ∧
      (∀ handle name, s.names.resolve? handle = some name →
        later.names.resolve? handle = some name ∧ later.names.handle? name = some handle) ∧
      (∀ text tokens, (s.tokenize text).1 = .ok tokens →
        (s.tokenize text).2.names.names = s.names.names ++
          ((Token.allIdentifiers tokens).filter (· ∉ s.names.names)).eraseDups) ∧
      s.registry = (empty.returned steps).getLastD {} := by
  intro s later
  have hnodup : s.names.names.Nodup := nodup_names_after steps
  have hlater : later.names.names.Nodup := nodup_names_after (steps ++ more)
  have hgrown : s.names.names <+: later.names.names := by
    obtain ⟨names, hnames⟩ := s.exists_names_after more
    rw [show later = s.after more from after_append empty steps more, hnames]
    exact NameTable.names_prefix_internAll s.names names
  refine ⟨hgrown, fun handle name => NameTable.resolve?_eq_some_iff hnodup, ?_, ?_,
    registry_after empty steps⟩
  · intro handle name hname
    have hkept := NameTable.resolve?_of_prefix hgrown hname
    exact ⟨hkept, (NameTable.resolve?_eq_some_iff hlater).mp hkept⟩
  · intro text tokens htokens
    have hscanned : Offside.tokenize text s.names = (.ok tokens, (s.tokenize text).2.names) :=
      Prod.ext htokens rfl
    rw [(yields_tokenize hscanned).entered_eq, NameTable.names_internAll]

/-- A class that cannot be registered fails its reading, which keeps the names entered before the
failure and the classes of the reading before it.  The names in a formatted string come in at its
place. -/
theorem after_keeps_embedded :
    ∃ steps s later, steps =
      [Step.read "class A:\n    pass\n", .read "class B(Missing):\n    pass\n"] ∧
      s = empty.after steps ∧ later = empty.after (steps ++ [.tokenize "d = '"]) ∧
      s.registry.classes.map ClassDef.name = ["A"] ∧ later.names.handle? "Missing" = some 3 ∧
      (s.tokenize "f'{c}{A}' + b + c\n").2.names.names =
        ["A", "__init__", "B", "Missing", "c", "b"] := by
  obtain ⟨steps, hsteps⟩ : ∃ steps, steps =
    [Step.read "class A:\n    pass\n", .read "class B(Missing):\n    pass\n"] := ⟨_, rfl⟩
  obtain ⟨-, -, hkept, htokens, hregistry⟩ := after_keeps steps [.tokenize "d = '"]
  have hnames : (empty.after steps).names.names = ["A", "__init__", "B", "Missing"] := by
    subst hsteps
    decide +kernel
  have hreturned : ((empty.returned steps).getLastD {}).classes.map ClassDef.name = ["A"] := by
    subst hsteps
    decide +kernel
  have hidentifiers : (((empty.after steps).tokenize "f'{c}{A}' + b + c\n").1.toOption.map
      Token.allIdentifiers) = some ["c", "A", "b", "c"] := by
    subst hsteps
    decide +kernel
  obtain ⟨tokens, htext, hidentifiers⟩ := Option.map_eq_some_iff.mp hidentifiers
  refine ⟨steps, _, _, hsteps, rfl, rfl, ?_, (hkept 3 "Missing" ?_).2, ?_⟩
  · rw [hregistry, hreturned]
  · rw [NameTable.resolve?, hnames]
    rfl
  · rw [htokens _ tokens (eq_ok_of_toOption htext), hidentifiers, hnames]
    decide

end Session

end Offside
