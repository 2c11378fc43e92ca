import Offside.Proofs.BatchOutput
import Offside.Proofs.Files.Places

/-!
# Batches that write

A batch reads and writes one source file after the other, so what it writes may hit what it has
written or what it is still to read.  `Batch.run_stores_iff` says when it does not: the code of
every source file that is counted as compiled is where it belongs, and every source file is as it
was, exactly if source files with the same target have the same code and a target that is a source
file already holds the code that goes there.  Codes are those of the texts before the run.

A run is a chain of visits (`Batch.Trace`).  What one visit does to the tree is said once
(`Batch.runUnit_cases`); what all of them leave at a place is found by an induction on the chain
(`Batch.Trace.fileAt?_cases`).
-/

namespace Offside

open List

/-- The text that a file holds. -/
def Contents.text? : Contents → Option String
  | .text content => some content
  | .binary => none

namespace FileTree

variable {t t' : FileTree}

/-- The text at the place of a path. -/
def text? (t : FileTree) (path : Path) : Option String :=
  (t.fileAt? (t.placeOf path)).bind Contents.text?

theorem fileAt?_of_text? {path : Path} {text : String} (h : t.text? path = some text) :
    t.fileAt? (t.placeOf path) = some (.text text) := by
  obtain ⟨contents, hcontents, htext⟩ := Option.bind_eq_some_iff.mp h
  cases contents with
  | text content => rw [hcontents, Option.some.inj htext]
  | binary => cases htext

/-- The code of the text at the place of a path. -/
def code? (t : FileTree) (path : Path) : Option String :=
  (t.text? path).bind fun text => (compile text).toOption

/-- The tree `t'` has the directories of `t`, and its files. -/
structure Keeps (t t' : FileTree) : Prop extends Grows t t' where
  fileAt : ∀ place, t'.fileAt? place = t.fileAt? place

theorem Keeps.refl (t : FileTree) : Keeps t t := ⟨.refl t, fun _ => rfl⟩

theorem Keeps.trans {t'' : FileTree} (h : Keeps t t') (h' : Keeps t' t'') : Keeps t t'' :=
  ⟨h.toGrows.trans h'.toGrows, fun place => (h'.fileAt place).trans (h.fileAt place)⟩

/-- The tree `t'` has the directories of `t`, and its files but for the text that was written to a
path. -/
structure Stores (t : FileTree) (target : Path) (text : String) (t' : FileTree) : Prop
    extends Grows t t' where
  find : t'.find target = .ok (.file (.text text))
  fileAt : ∀ place, t'.fileAt? place = if place =
    t.placeOf target then some (.text text) else t.fileAt? place

/-! ## Steps that keep the files -/

/-- The step keeps the files of every tree. -/
def Keeping {α : Type} (step : StateM FileTree α) : Prop := ∀ t, Keeps t (step t).2

section Keeping

variable {α β : Type}

theorem keeping_pure (a : α) : Keeping (pure a) := fun t => .refl t

theorem Keeping.bind {step : StateM FileTree α} {f : α → StateM FileTree β} (h : Keeping step)
    (hf : ∀ a, Keeping (f a)) : Keeping (step >>= f) := fun t =>
  (h t).trans (hf (step t).1 (step t).2)

theorem keeping_isDirectory (path : Path) : Keeping (Files.isDirectory path) := fun t => .refl t

theorem keeping_makeDirectory (path : Path) : Keeping (Files.makeDirectory path) := by
  intro t
  cases hmade : t.makeDirectory path with
  | error e =>
    have hstep : (Files.makeDirectory path : StateM FileTree _) t = (.error e, t) :=
      change_of_error hmade
    rw [hstep]
    exact .refl t
  | ok t' =>
    have hstep : (Files.makeDirectory path : StateM FileTree _) t = (.ok (), t') :=
      change_of_ok hmade
    obtain ⟨hgrows, hfile⟩ := grows_makeDirectory hmade
    rw [hstep]
    exact ⟨hgrows, hfile⟩

theorem keeping_ensureDirectory (path : Path) :
    Keeping (Files.ensureDirectory path : StateM FileTree _) := by
  refine (keeping_makeDirectory path).bind fun result => ?_
  split
  · exact keeping_pure _
  · refine (keeping_isDirectory path).bind fun isDirectory => ?_
    split
    · exact keeping_pure _
    · exact keeping_pure _

theorem keeping_ensureAll (paths : List Path) :
    Keeping (Files.ensureAll paths : StateM FileTree _) := by
  induction paths with
  | nil => exact keeping_pure _
  | cons path parents ih =>
    refine (keeping_ensureDirectory path).bind fun result => ?_
    split
    · refine ih.bind fun made => ?_
      split
      · exact keeping_ensureDirectory path
      · exact keeping_pure _
    · exact keeping_pure _

end Keeping

end FileTree

namespace Batch

variable {b : Batch} {t t' : FileTree}

theorem keeping_prepare (target : Path) : FileTree.Keeping (prepare target) := by
  unfold prepare
  split
  · exact FileTree.keeping_pure _
  · refine (FileTree.keeping_ensureAll _).bind fun result => ?_
    split
    · exact FileTree.keeping_pure _
    · exact FileTree.keeping_pure _

/-! ## Visits -/

/-- Storing a code either keeps the files or writes the code. -/
theorem store_cases (target : Path) (code : String) (t : FileTree) :
    (∃ e t', (store target code : StateM FileTree _) t = (.error e, t') ∧ t.Keeps t') ∨
      ∃ t', (store target code : StateM FileTree _) t = (.ok (), t') ∧ t.Stores target code t' := by
  have hkeeps := keeping_prepare target t
  obtain ⟨⟨prepared, mid⟩, hprepared⟩ : ∃ x, (prepare target : StateM FileTree _) t = x := ⟨_, rfl⟩
  rw [hprepared] at hkeeps
  rw [store, bind_eq_of_step hprepared]
  cases prepared with
  | error e => exact .inl ⟨e, mid, rfl, hkeeps⟩
  | ok _ =>
    cases hwrite : mid.write target (.text code) with
    | error e =>
      have hstep : (Files.write target code : StateM FileTree _) mid = (.error e, mid) :=
        FileTree.change_of_error hwrite
      exact .inl ⟨.unwritable target e, mid, bind_eq_of_step hstep, hkeeps⟩
    | ok t' =>
      have hstep : (Files.write target code : StateM FileTree _) mid = (.ok (), t') :=
        FileTree.change_of_ok hwrite
      obtain ⟨hgrows, hfind, hfile⟩ := FileTree.grows_write hwrite
      refine .inr ⟨t', bind_eq_of_step hstep, hkeeps.toGrows.trans hgrows, hfind, fun place => ?_⟩
      rw [hfile, hkeeps.toGrows.placeOf_eq, hkeeps.fileAt]

/-- Where the code of a source file goes. -/
def target (b : Batch) (source : Path) : Path := source.output b.directory b.extension

theorem deliver_cases (hb : b.toOutput = false) (source : Path) (code : String) (t : FileTree) :
    ∃ report t', (b.deliver source code : StateM FileTree _) t = (report, t') ∧
      (report.compiled = 0 ∧ t.Keeps t' ∨ report.compiled = 1 ∧
        t.Stores (b.target source) code t') := by
  unfold deliver
  rw [if_neg (by simp [hb])]
  rcases store_cases (source.output b.directory b.extension) code t with
    ⟨e, t', hstore, hkeeps⟩ | ⟨t', hstore, hstores⟩
  · exact ⟨_, t', bind_eq_of_step hstore, .inl ⟨rfl, hkeeps⟩⟩
  · exact ⟨_, t', bind_eq_of_step hstore, .inr ⟨rfl, hstores⟩⟩

/-- What a visit does: it keeps the files, or it writes the code of the source file and is counted.
-/
theorem runUnit_cases (hb : b.toOutput = false) {source : Path} {report : Report}
    (h : (b.runUnit source : StateM FileTree _) t = (report, t')) :
    (report.compiled = 0 ∧ t.Keeps t') ∨
      (report.compiled = 1 ∧ ∃ code, t.code? source = some code ∧
        t.Stores (b.target source) code t') := by
  rw [runUnit, bind_eq_of_step (t.run_read source)] at h
  cases htext : t.read source with
  | error e =>
    rw [htext] at h
    cases h
    exact .inl ⟨rfl, .refl t⟩
  | ok text =>
    rw [htext] at h
    dsimp only at h
    cases hresult : (compilation text).result with
    | error e =>
      rw [hresult] at h
      cases h
      exact .inl ⟨rfl, .refl t⟩
    | ok code =>
      rw [hresult] at h
      have hcode : t.code? source = some code := by
        rw [FileTree.code?, FileTree.text?, FileTree.fileAt?_of_read htext]
        change (compile text).toOption = some code
        rw [compile, hresult]
        rfl
      obtain ⟨delivered, left, hrun, hcases⟩ := deliver_cases hb source code t
      dsimp only at h
      rw [bind_eq_of_step hrun] at h
      cases h
      rcases hcases with ⟨hzero, hkeeps⟩ | ⟨hone, hstores⟩
      · exact .inl ⟨(Nat.zero_add _).trans hzero, hkeeps⟩
      · exact .inr ⟨(Nat.zero_add _).trans hone, code, hcode, hstores⟩

/-- A chain of visits, each with its report. -/
inductive Trace (b : Batch) : FileTree → List (Path × Report) → FileTree → Prop
  | nil {t : FileTree} : Trace b t [] t
  | cons {t mid t' : FileTree} {source : Path} {report : Report} {visits : List (Path × Report)}
    (h : (b.runUnit source : StateM FileTree _) t = (report, mid)) (hrest : Trace b mid visits t') :
    Trace b t ((source, report) :: visits) t'

/-- Visits source files one after the other. -/
def visitEach (b : Batch) : List Path → StateM FileTree (List (Path × Report))
  | [] => return []
  | source :: rest => do
    let report ← b.runUnit source
    return (source, report) :: (← b.visitEach rest)

/-- Visits the source files of an input. -/
def visitInput (b : Batch) (input : Path) : StateM FileTree (List (Path × Report)) := do
  match ← units input with
  | .error _ => return []
  | .ok sources => b.visitEach sources

/-- Visits the source files of some inputs. -/
def visitInputs (b : Batch) : List Path → StateM FileTree (List (Path × Report))
  | [] => return []
  | input :: rest => do return (← b.visitInput input) ++ (← b.visitInputs rest)

/-- The source files that a batch visits, with the report of each visit. -/
def visits (b : Batch) : StateM FileTree (List (Path × Report)) := b.visitInputs b.inputs

/-- Looking for the source files of an input changes nothing. -/
theorem units_eq (input : Path) (t : FileTree) :
    ∃ result, (units input : StateM FileTree _) t = (result, t) := by
  cases hfind : t.find input with
  | error e => exact ⟨_, units_of_missing hfind⟩
  | ok node =>
    cases node with
    | file contents => exact ⟨_, units_of_file hfind⟩
    | directory =>
      obtain ⟨entries, hentries⟩ := FileTree.exists_entries hfind
      exact ⟨_, units_of_directory hfind hentries⟩

theorem Trace.append {mid : FileTree} {front back : List (Path × Report)} (h : Trace b t front mid)
    (h' : Trace b mid back t') : Trace b t (front ++ back) t' := by
  induction h with
  | nil => exact h'
  | cons hrun _ ih => exact .cons hrun (ih h')

/-- The source files whose visits are counted. -/
def compiledSources (visits : List (Path × Report)) : List Path :=
  (visits.filter fun visit => visit.2.compiled == 1).map Prod.fst

section Chains

variable {source : Path} {report : Report} {visits : List (Path × Report)}

theorem compiledSources_cons_of_zero (h : report.compiled = 0) :
    compiledSources ((source, report) :: visits) = compiledSources visits := by
  simp [compiledSources, h]

theorem compiledSources_cons_of_one (h : report.compiled = 1) :
    compiledSources ((source, report) :: visits) = source :: compiledSources visits := by
  simp [compiledSources, h]

theorem compiledSources_append (front back : List (Path × Report)) :
    compiledSources (front ++ back) = compiledSources front ++ compiledSources back := by
  rw [compiledSources, filter_append, map_append]
  rfl

end Chains

/-- The visits are those of the run: they leave the same tree, and the run counts what they count.
-/
def Visited (b : Batch) (visit : StateM FileTree (List (Path × Report)))
    (run : StateM FileTree Report) : Prop :=
  ∀ t, ∃ visits report t', visit t = (visits, t') ∧ run t = (report, t') ∧
    report.compiled = (compiledSources visits).length ∧ Trace b t visits t'

/-- A run over some sources visits each of them. -/
theorem visited_each (hb : b.toOutput = false) (sources : List Path) :
    b.Visited (b.visitEach sources) (runEach b.runUnit sources) := by
  induction sources with
  | nil => exact fun t => ⟨[], {}, t, rfl, rfl, rfl, .nil⟩
  | cons source rest ih =>
    intro t
    obtain ⟨⟨first, mid⟩, hfirst⟩ : ∃ x, (b.runUnit source : StateM FileTree _) t = x := ⟨_, rfl⟩
    obtain ⟨visits, report, t', hvisit, hrun, hcompiled, htrace⟩ := ih mid
    refine ⟨(source, first) :: visits, first ++ report, t', ?_, ?_, ?_, .cons hfirst htrace⟩
    · rw [visitEach, bind_eq_of_step hfirst, bind_eq_of_step hvisit]
      rfl
    · rw [runEach, bind_eq_of_step hfirst, bind_eq_of_step hrun]
      rfl
    · change first.compiled + report.compiled = _
      rcases runUnit_cases hb hfirst with ⟨hzero, -⟩ | ⟨hone, -⟩
      · rw [compiledSources_cons_of_zero hzero, hzero, hcompiled, Nat.zero_add]
      · rw [compiledSources_cons_of_one hone, hone, hcompiled, length_cons, Nat.add_comm]

theorem visited_input (hb : b.toOutput = false) (input : Path) :
    b.Visited (b.visitInput input) (b.runInput input) := by
  intro t
  obtain ⟨result, hunits⟩ := units_eq input t
  rw [visitInput, runInput, bind_eq_of_step hunits, bind_eq_of_step hunits]
  cases result with
  | error message => exact ⟨[], _, t, rfl, rfl, rfl, .nil⟩
  | ok sources =>
    obtain ⟨visits, report, t', hvisit, hrun, hcompiled, htrace⟩ := visited_each hb sources t
    refine ⟨visits, _, t', hvisit, bind_eq_of_step hrun, ?_, htrace⟩
    rw [← hcompiled]
    exact Nat.zero_add _

theorem visited_inputs (hb : b.toOutput = false) (inputs : List Path) :
    b.Visited (b.visitInputs inputs) (runEach b.runInput inputs) := by
  induction inputs with
  | nil => exact fun t => ⟨[], {}, t, rfl, rfl, rfl, .nil⟩
  | cons input rest ih =>
    intro t
    obtain ⟨first, report, mid, hfirst, hrun, hcompiled, htrace⟩ := visited_input hb input t
    obtain ⟨others, report', t', hothers, hrun', hcompiled', htrace'⟩ := ih mid
    refine ⟨first ++ others, report ++ report', t', ?_, ?_, ?_, htrace.append htrace'⟩
    · rw [visitInputs, bind_eq_of_step hfirst, bind_eq_of_step hothers]
      rfl
    · rw [runEach, bind_eq_of_step hrun, bind_eq_of_step hrun']
      rfl
    · rw [compiledSources_append, length_append, ← hcompiled, ← hcompiled']
      rfl

/-! ## What a run leaves -/

section Chains

variable {visits : List (Path × Report)} {after : FileTree}

/-- A run only adds directories, and the targets of what is counted can be found from then on. -/
theorem Trace.grows (hb : b.toOutput = false) (h : Trace b t visits after) :
    t.Grows after ∧ ∀ source ∈ compiledSources visits,
      ∃ mid node, t.Grows mid ∧ mid.Grows after ∧ mid.find (b.target source) = .ok node := by
  induction h with
  | nil => exact ⟨.refl _, forall_mem_nil _⟩
  | cons hrun _ ih =>
    obtain ⟨hgrows, hfound⟩ := ih
    rcases runUnit_cases hb hrun with ⟨hzero, hkeeps⟩ | ⟨hone, code, -, hstores⟩
    · refine ⟨hkeeps.toGrows.trans hgrows, fun source hsource => ?_⟩
      rw [compiledSources_cons_of_zero hzero] at hsource
      obtain ⟨mid, node, hmid, hafter, hfind⟩ := hfound source hsource
      exact ⟨mid, node, hkeeps.toGrows.trans hmid, hafter, hfind⟩
    · refine ⟨hstores.toGrows.trans hgrows, fun source hsource => ?_⟩
      rw [compiledSources_cons_of_one hone] at hsource
      rcases mem_cons.mp hsource with rfl | hsource
      · exact ⟨_, _, hstores.toGrows, hgrows, hstores.find⟩
      · obtain ⟨mid, node, hmid, hafter, hfind⟩ := hfound source hsource
        exact ⟨mid, node, hstores.toGrows.trans hmid, hafter, hfind⟩

/-- What is left at a place, as long as no source file is changed: the code of a source file that
goes there and is counted, or what was there if there is none. -/
theorem Trace.fileAt?_cases (hb : b.toOutput = false) {now : FileTree}
    (h : Trace b now visits after) (hgrows : t.Grows now) {all : List (Path × Report)}
    (hall : ∀ visit ∈ visits, visit ∈ all)
    (hkept : ∀ visit ∈ all, now.fileAt? (t.placeOf visit.1) = t.fileAt? (t.placeOf visit.1))
    (hsame : ∀ source ∈ compiledSources visits, ∀ visit ∈ all,
      t.placeOf (b.target source) = t.placeOf visit.1 → t.text? visit.1 = t.code? source)
    (place : Place) :
    (∃ source ∈ compiledSources visits, t.placeOf (b.target source) = place ∧
        ∃ code, t.code? source = some code ∧ after.fileAt? place = some (.text code)) ∨
      (∀ source ∈ compiledSources visits, t.placeOf (b.target source) ≠ place) ∧
        after.fileAt? place = now.fileAt? place := by
  induction h with
  | nil => exact .inr ⟨forall_mem_nil _, rfl⟩
  | @cons now mid after source report visits hrun _ ih =>
    obtain ⟨hvisit, hall⟩ := forall_mem_cons.mp hall
    rcases runUnit_cases hb hrun with ⟨hzero, hkeeps⟩ | ⟨hone, code, hcode, hstores⟩
    · rw [compiledSources_cons_of_zero hzero] at hsame ⊢
      rw [← hkeeps.fileAt place]
      refine ih (hgrows.trans hkeeps.toGrows) hall (fun other hother => ?_) hsame
      rw [hkeeps.fileAt, hkept other hother]
    · rw [compiledSources_cons_of_one hone] at hsame ⊢
      obtain ⟨hfirst, hsame⟩ := forall_mem_cons.mp hsame
      -- the text that is read is the one before the run, as the source file was not changed
      have hcode : t.code? source = some code := by
        rw [FileTree.code?, FileTree.text?, hgrows.placeOf_eq, hkept _ hvisit] at hcode
        exact hcode
      have hmid : ∀ other ∈ all, mid.fileAt? (t.placeOf other.1) =
          t.fileAt? (t.placeOf other.1) := by
        intro other hother
        rw [hstores.fileAt, hgrows.placeOf_eq]
        by_cases hplace : t.placeOf other.1 = t.placeOf (b.target source)
        · rw [if_pos hplace,
            FileTree.fileAt?_of_text? ((hfirst other hother hplace.symm).trans hcode)]
        · rw [if_neg hplace, hkept other hother]
      rcases ih (hgrows.trans hstores.toGrows) hall hmid hsame with ⟨other, hother, hlast⟩ |
        ⟨hnone, hlast⟩
      · exact .inl ⟨other, mem_cons_of_mem _ hother, hlast⟩
      · rw [hstores.fileAt, hgrows.placeOf_eq] at hlast
        by_cases hplace : t.placeOf (b.target source) = place
        · rw [if_pos hplace.symm] at hlast
          exact .inl ⟨source, mem_cons_self, hplace, code, hcode, hlast⟩
        · rw [if_neg (Ne.symm hplace)] at hlast
          exact .inr ⟨forall_mem_cons.mpr ⟨hplace, hnone⟩, hlast⟩

end Chains

/-- After a run that writes, the target of every source file that is counted as compiled holds the
code of the text that the source file had before, and all source files are as they were, exactly if
source files that are counted have the same code whenever they have the same target, and the place
of a source file is no target unless its text is the code that goes there. -/
theorem run_stores_iff {b : Batch} (hb : b.toOutput = false) (t : FileTree) :
    ∃ visits report after, b.visits.run t = (visits, after) ∧
      (b.run : StateM FileTree _).run t = (report, after) ∧
      report.compiled = (compiledSources visits).length ∧
      (((∀ source ∈ compiledSources visits,
            ∃ code, t.code? source = some code ∧ after.read (b.target source) = .ok code) ∧
          ∀ visit ∈ visits, after.fileAt? (t.placeOf visit.1) = t.fileAt? (t.placeOf visit.1)) ↔
        (∀ source ∈ compiledSources visits, ∀ other ∈ compiledSources visits,
            t.placeOf (b.target source) = t.placeOf (b.target other) →
              t.code? source = t.code? other) ∧
          ∀ source ∈ compiledSources visits, ∀ visit ∈ visits,
            t.placeOf (b.target source) = t.placeOf visit.1 →
              t.text? visit.1 = t.code? source) := by
  obtain ⟨visits, report, after, hvisits, hrun, hcompiled, htrace⟩ := visited_inputs hb b.inputs t
  obtain ⟨hgrows, hfound⟩ := htrace.grows hb
  refine ⟨visits, report, after, hvisits, hrun, hcompiled, ?_, ?_⟩
  · rintro ⟨hstored, hkept⟩
    have hfiles : ∀ source ∈ compiledSources visits, ∃ code, t.code? source = some code ∧
        after.fileAt? (t.placeOf (b.target source)) = some (.text code) := by
      intro source hsource
      obtain ⟨code, hcode, hread⟩ := hstored source hsource
      have hfile := FileTree.fileAt?_of_read hread
      rw [hgrows.placeOf_eq] at hfile
      exact ⟨code, hcode, hfile⟩
    constructor
    · intro source hsource other hother hplace
      obtain ⟨code, hcode, hfile⟩ := hfiles source hsource
      obtain ⟨code', hcode', hfile'⟩ := hfiles other hother
      rw [hplace, hfile'] at hfile
      cases hfile
      rw [hcode, hcode']
    · intro source hsource visit hvisit hplace
      obtain ⟨code, hcode, hfile⟩ := hfiles source hsource
      rw [hplace, hkept visit hvisit] at hfile
      rw [FileTree.text?, hfile, hcode]
      rfl
  · rintro ⟨hcodes, htexts⟩
    have hcases :=
      htrace.fileAt?_cases hb (.refl t) (fun _ hvisit => hvisit) (fun _ _ => rfl) htexts
    constructor
    · intro source hsource
      obtain ⟨mid, node, hmid, hafter, hfind⟩ := hfound source hsource
      rcases hcases (t.placeOf (b.target source)) with
        ⟨other, hother, hplace, code, hcode, hlast⟩ | ⟨hnone, -⟩
      · rw [← hmid.placeOf_eq] at hlast
        exact ⟨code, (hcodes source hsource other hother hplace.symm).trans hcode,
          hafter.read_eq hfind hlast⟩
      · exact absurd rfl (hnone source hsource)
    · intro visit hvisit
      rcases hcases (t.placeOf visit.1) with ⟨source, hsource, hplace, code, hcode,
        hlast⟩ | ⟨-, hlast⟩
      · rw [hlast,
          FileTree.fileAt?_of_text? ((htexts source hsource visit hvisit hplace).trans hcode)]
      · exact hlast

/-- Two source files of different names go to one directory, which is not there before. -/
theorem run_stores_iff_apart :
    ∃ (b : Batch) (t after : FileTree) (report : Report),
      b = { inputs := [⟨"a/m.py"⟩, ⟨"b/n.py"⟩], directory := some ⟨"out/x"⟩ } ∧
      t = ⟨[(["a"], .directory), (["a", "m.py"], .file (.text "x = 1\n")), (["b"], .directory),
        (["b", "n.py"], .file (.text "x = 2\n"))], []⟩ ∧
      b.toOutput = false ∧ (b.run : StateM FileTree _).run t = (report, after) ∧
        report.compiled = 2 ∧
      after.read ⟨"out/x/m.jl"⟩ = .ok "x = 1\n" ∧ after.read ⟨"out/x/n.jl"⟩ = .ok "x = 2\n" ∧
      ∀ source ∈ b.inputs, after.fileAt? (t.placeOf source) = t.fileAt? (t.placeOf source) := by
  generalize hb : Batch.mk _ _ _ _ = b
  generalize ht : FileTree.mk _ _ = t
  have hfiles : b.toOutput = false := by rw [← hb]
  obtain ⟨visits, report, after, hvisits, hrun, hcompiled, hiff⟩ := run_stores_iff hfiles t
  have hvalues : ((b.visits.run t).1.map Prod.fst, compiledSources (b.visits.run t).1) =
      ([⟨"a/m.py"⟩, ⟨"b/n.py"⟩], [⟨"a/m.py"⟩, ⟨"b/n.py"⟩]) := by
    rw [← hb, ← ht]
    decide +kernel
  rw [hvisits] at hvalues
  obtain ⟨hsources, hcounted⟩ := Prod.mk.inj hvalues
  dsimp only at hsources hcounted
  rw [hcounted] at hcompiled hiff
  have htargets : ∀ source ∈ [⟨"a/m.py"⟩, ⟨"b/n.py"⟩], ∀ other ∈ [⟨"a/m.py"⟩, ⟨"b/n.py"⟩],
      t.placeOf (b.target source) = t.placeOf (b.target other) → source = other := by
    rw [← hb, ← ht]
    decide +kernel
  have hapart : ∀ source ∈ [⟨"a/m.py"⟩, ⟨"b/n.py"⟩], ∀ other ∈ visits.map Prod.fst,
      t.placeOf (b.target source) ≠ t.placeOf other := by
    rw [hsources, ← hb, ← ht]
    decide +kernel
  obtain ⟨hstored, hkept⟩ := hiff.mpr ⟨fun source hsource other hother hplace =>
      congrArg t.code? (htargets source hsource other hother hplace),
    fun source hsource visit hvisit hplace =>
      absurd hplace (hapart source hsource visit.1 (mem_map_of_mem hvisit))⟩
  have hfirst : (t.code? ⟨"a/m.py"⟩, b.target ⟨"a/m.py"⟩) = (some "x = 1\n", ⟨"out/x/m.jl"⟩) := by
    rw [← hb, ← ht]
    decide +kernel
  have hsecond : (t.code? ⟨"b/n.py"⟩, b.target ⟨"b/n.py"⟩) = (some "x = 2\n", ⟨"out/x/n.jl"⟩) := by
    rw [← hb, ← ht]
    decide +kernel
  obtain ⟨hfirstCode, hfirstTarget⟩ := Prod.mk.inj hfirst
  obtain ⟨hsecondCode, hsecondTarget⟩ := Prod.mk.inj hsecond
  refine ⟨b, t, after, report, rfl, rfl, hfiles, hrun, hcompiled, ?_, ?_, ?_⟩
  · obtain ⟨code, hcode, hread⟩ := hstored ⟨"a/m.py"⟩ (by decide)
    cases hfirstCode.symm.trans hcode
    rwa [hfirstTarget] at hread
  · obtain ⟨code, hcode, hread⟩ := hstored ⟨"b/n.py"⟩ (by decide)
    cases hsecondCode.symm.trans hcode
    rwa [hsecondTarget] at hread
  · intro source hsource
    rw [← hb] at hsource
    have hvisited : source ∈ visits.map Prod.fst := hsources ▸ hsource
    obtain ⟨visit, hvisit, rfl⟩ := mem_map.mp hvisited
    exact hkept visit hvisit

/-- Two source files of one name go to one target, which holds the code of the second; both are
counted, and nothing fails.  If the target is the first source file, that is lost too. -/
theorem run_overwrites :
    ∃ (b : Batch) (t after lost : FileTree) (report report' : Report),
      b = { inputs := [⟨"a/m.py"⟩, ⟨"b/m.py"⟩], directory := some ⟨"out"⟩ } ∧
      t = ⟨[(["a"], .directory), (["a", "m.py"], .file (.text "x = 1\n")), (["b"], .directory),
        (["b", "m.py"], .file (.text "x = 2\n"))], []⟩ ∧
      (b.run : StateM FileTree _).run t = (report, after) ∧ report.compiled = 2 ∧
        report.failed = 0 ∧
      t.code? ⟨"a/m.py"⟩ = some "x = 1\n" ∧ after.read (b.target ⟨"a/m.py"⟩) = .ok "x = 2\n" ∧
      ({ b with directory := some ⟨"a"⟩, extension := "py" }.run : StateM FileTree _).run t =
        (report', lost) ∧
      report'.compiled = 2 ∧ report'.failed = 0 ∧
      t.text? ⟨"a/m.py"⟩ = some "x = 1\n" ∧ lost.text? ⟨"a/m.py"⟩ = some "x = 2\n" := by
  generalize hb : Batch.mk _ _ _ _ = b
  generalize ht : FileTree.mk _ _ = t
  have hrun : ((b.run : StateM FileTree _).run t).1.compiled = 2 ∧
      ((b.run : StateM FileTree _).run t).1.failed = 0 ∧ t.code? ⟨"a/m.py"⟩ = some "x = 1\n" ∧
      (((b.run : StateM FileTree _).run t).2.read (b.target ⟨"a/m.py"⟩)).toOption =
        some "x = 2\n" := by
    rw [← hb, ← ht]
    decide +kernel
  obtain ⟨hcompiled, hfailed, hcode, hread⟩ := hrun
  refine ⟨b, t, _, _, _, _, rfl, rfl, rfl, hcompiled, hfailed, hcode,
    eq_ok_of_toOption hread, rfl, ?_⟩
  rw [← hb, ← ht]
  decide +kernel

end Batch

end Offside
