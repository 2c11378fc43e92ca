import Mathlib.Data.List.Basic
import Offside.Batch
import Offside.Proofs.Files.Tree

/-!
# Batches that print

A batch that prints its code leaves the tree as it is, and a failure of one file or input does not
touch the others: what is printed are the printouts of the source files that have one, in the order
of the inputs, and the counts are those of the source files with and without a printout and of the
missing inputs (`Batch.run_prints`).  An input without a printout could as well be left out.
-/

namespace Offside

open List

namespace FileTree

/-- What an input stands for: nothing if it is missing, a file for itself, and a directory for the
source files right in it, in the order of their names. -/
inductive Collects (t : FileTree) (input : Path) : Option (List Path) → Prop
  | missing {e : FileError} (h : t.find input = .error e) : Collects t input none
  | file {contents : Contents} (h : t.find input = .ok (.file contents)) :
    Collects t input (some [input])
  | directory {place : Place} {names : List String} (h : t.directoryPlace input = .ok place)
    (hordered : names.Pairwise (· < ·))
    (hnames : ∀ name, name ∈ names ↔
      (∃ contents, t.node? (place ++ [name]) = some (.file contents)) ∧
      (input.join name).extension? = some Batch.sourceExtension) :
    Collects t input (some (names.map input.join))

/-- An input stands for one thing only. -/
theorem Collects.unique {t : FileTree} {input : Path} {sources sources' : Option (List Path)}
    (h : t.Collects input sources) (h' : t.Collects input sources') : sources = sources' := by
  cases h with
  | missing h =>
    cases h' with
    | missing _ => rfl
    | file h' => cases h.symm.trans h'
    | directory h' => cases h.symm.trans (find_of_directoryPlace h')
  | file h =>
    cases h' with
    | missing h' => cases h.symm.trans h'
    | file _ => rfl
    | directory h' => cases h.symm.trans (find_of_directoryPlace h')
  | directory h hordered hnames =>
    cases h' with
    | missing h' | file h' => cases h'.symm.trans (find_of_directoryPlace h)
    | directory h' hordered' hnames' =>
      cases h.symm.trans h'
      have hne {names : List String} (h : names.Pairwise (· < ·)) : names.Nodup := by
        refine List.Pairwise.imp ?_ h
        intro a b hlt heq
        exact String.lt_irrefl b (heq ▸ hlt)
      have hperm := (perm_ext_iff_of_nodup (hne hordered) (hne hordered')).mpr fun name =>
        (hnames name).trans (hnames' name).symm
      rw [hperm.eq_of_pairwise (fun _ _ _ _ hab hba => absurd hba (String.lt_asymm hab))
        hordered hordered']

/-- What is printed for a source file: its path and its code, if it is a text that compiles. -/
def printout? (t : FileTree) (source : Path) : Option String :=
  (t.read source).toOption.bind fun text =>
    (compile text).toOption.map fun code => "# " ++ source.text ++ "\n" ++ code

end FileTree

/-- A report with the given printouts and number of failures, whatever is in its log. -/
structure Report.Sums (r : Report) (printouts : List String) (failures : Nat) : Prop where
  printed : r.printed = String.join printouts
  compiled : r.compiled = printouts.length
  failed : r.failed = failures

namespace Report

theorem Sums.append {r r' : Report} {printouts printouts' : List String} {n n' : Nat}
    (h : r.Sums printouts n) (h' : r'.Sums printouts' n') :
    (r ++ r').Sums (printouts ++ printouts') (n + n') where
  printed := by
    rw [String.join_append, ← h.printed, ← h'.printed]
    rfl
  compiled := by
    rw [length_append, ← h.compiled, ← h'.compiled]
    rfl
  failed := by
    rw [← h.failed, ← h'.failed]
    rfl

theorem sums_log (log : List Log.Entry) : Sums { log } [] 0 := ⟨rfl, rfl, rfl⟩

theorem sums_failure (entry : Log.Entry) : (failure entry).Sums [] 1 := ⟨rfl, rfl, rfl⟩

theorem sums_success (printed : String) (entry : Log.Entry) :
    (success printed entry).Sums [printed] 0 where
  printed := by simp [success]
  compiled := rfl
  failed := rfl

end Report

namespace Batch

variable {t : FileTree}

/-! ## The source files of an input -/

section Units

variable {input : Path}

theorem units_of_missing {e : FileError} (h : t.find input = .error e) :
    (units input : StateM FileTree _) t =
      (.error (inputError "input" input " does not exist" e), t) := by
  rw [units, bind_eq_of_step (t.run_isDirectory input), h]
  rfl

theorem units_of_file {contents : Contents} (h : t.find input = .ok (.file contents)) :
    (units input : StateM FileTree _) t = (.ok [input], t) := by
  rw [units, bind_eq_of_step (t.run_isDirectory input), h]
  rfl

theorem units_of_directory {entries : List Entry} (h : t.find input = .ok .directory)
    (hentries : t.entries input = .ok entries) :
    (units input : StateM FileTree _) t =
      (.ok ((((entries.filter Entry.isFile).map Entry.name).filter
        ((fun path => path.extension? == some sourceExtension) ∘ input.join)).map
          input.join), t) := by
  rw [units, bind_eq_of_step (t.run_isDirectory input), h]
  refine (bind_eq_of_step (t.run_entries input)).trans ?_
  rw [hentries, ← filter_map, map_map]
  rfl

end Units

/-- Looking for the source files of an input leaves the tree as it is. -/
theorem exists_units (hmap : t.IsMap) (input : Path) :
    ∃ result, (units input : StateM FileTree _) t = (result, t) ∧
      t.Collects input result.toOption := by
  cases hfind : t.find input with
  | error e => exact ⟨_, units_of_missing hfind, .missing hfind⟩
  | ok node =>
    cases node with
    | file contents => exact ⟨_, units_of_file hfind, .file hfind⟩
    | directory =>
      obtain ⟨entries, hentries⟩ := FileTree.exists_entries hfind
      refine ⟨_, units_of_directory hfind hentries, ?_⟩
      obtain ⟨place, hplace, hordered, hmem⟩ := FileTree.exists_place_of_entries hmap hentries
      refine .directory hplace ?_ fun name => ?_
      · refine hordered.sublist (filter_sublist.trans ?_)
        exact filter_sublist.map Entry.name
      · rw [mem_filter, mem_map, Function.comp_apply, beq_iff_eq]
        refine and_congr_left fun _ => ?_
        constructor
        · rintro ⟨entry, hentry, rfl⟩
          obtain ⟨hentry, hfile⟩ := mem_filter.mp hentry
          obtain ⟨node, hnode, hisFile⟩ := (hmem entry).mp hentry
          cases node with
          | file contents => exact ⟨contents, hnode⟩
          | directory => cases hisFile.symm.trans hfile
        · rintro ⟨contents, hnode⟩
          exact ⟨⟨name, true⟩, mem_filter.mpr ⟨(hmem _).mpr ⟨_, hnode, rfl⟩, rfl⟩, rfl⟩

/-! ## Runs -/

/-- What a printing batch makes of a source file: its printout, or else a failure. -/
theorem sums_runUnit {b : Batch} (hb : b.toOutput) (source : Path) :
    ∃ report, (b.runUnit source : StateM FileTree _) t = (report, t) ∧
      report.Sums (t.printout? source).toList (t.printout? source).isNone.toNat := by
  rw [runUnit, bind_eq_of_step (t.run_read source), FileTree.printout?]
  cases t.read source with
  | error e => exact ⟨_, rfl, Report.sums_failure _⟩
  | ok text =>
    dsimp only [Except.toOption, Option.bind_some, compile]
    cases (compilation text).result with
    | error e => exact ⟨_, rfl, (Report.sums_log _).append (Report.sums_failure _)⟩
    | ok code =>
      have hdeliver : b.deliver (m := StateM FileTree) source code = _ := if_pos hb
      dsimp only
      rw [hdeliver]
      exact ⟨_, rfl, (Report.sums_log _).append (Report.sums_success _ _)⟩

/-- Steps that leave the tree as it is do so one after the other, and their reports add up. -/
theorem sums_runEach {α : Type} {step : α → StateM FileTree Report} {printouts : α → List String}
    (failures : List α → Nat) (hnil : failures [] = 0)
    (hstep : ∀ a rest, ∃ report n, step a t = (report, t) ∧ report.Sums (printouts a) n ∧
      failures (a :: rest) = n + failures rest) (items : List α) :
    ∃ report, runEach step items t = (report, t) ∧
      report.Sums (items.flatMap printouts) (failures items) := by
  induction items with
  | nil =>
    rw [hnil]
    exact ⟨_, rfl, Report.sums_log []⟩
  | cons first rest ih =>
    obtain ⟨report, n, hfirst, hreport, hfailures⟩ := hstep first rest
    obtain ⟨others, hrest, hothers⟩ := ih
    rw [hfailures]
    refine ⟨report ++ others, ?_, hreport.append hothers⟩
    rw [runEach, bind_eq_of_step hfirst, bind_eq_of_step hrest]
    rfl

/-- What a printing batch makes of source files: the printouts of those that have one. -/
theorem sums_runUnits {b : Batch} (hb : b.toOutput) (sources : List Path) :
    ∃ report, (runEach b.runUnit sources : StateM FileTree _) t = (report, t) ∧
      report.Sums (sources.filterMap t.printout?) (sources.countP fun source =>
        (t.printout? source).isNone) := by
  rw [filterMap_eq_flatMap_toList]
  refine sums_runEach (countP _) countP_nil (fun source rest => ?_) sources
  obtain ⟨report, hrun, hsums⟩ := sums_runUnit hb source
  refine ⟨report, _, hrun, hsums, ?_⟩
  rw [countP_cons, Nat.add_comm]
  cases (t.printout? source).isNone with
  | false => rfl
  | true => rfl

/-- What a printing batch makes of an input: the printouts of its source files. -/
theorem sums_runInput {b : Batch} (hb : b.toOutput) {input : Path}
    {result : Except String (List Path)} (h : (units input : StateM FileTree _) t = (result, t)) :
    ∃ report, (b.runInput input : StateM FileTree _) t = (report, t) ∧
      report.Sums ((result.toOption.getD []).filterMap t.printout?)
        ((result.toOption.getD []).countP (fun source => (t.printout? source).isNone) +
          result.toOption.isNone.toNat) := by
  rw [runInput, bind_eq_of_step h]
  cases result with
  | error message => exact ⟨_, rfl, Report.sums_failure _⟩
  | ok sources =>
    obtain ⟨report, hrun, hsums⟩ := sums_runUnits hb sources
    refine ⟨_, bind_eq_of_step hrun, ?_⟩
    have hfound := (Report.sums_log [⟨.debug, "collected inputs",
      [("input", input.text), ("units", toString sources.length)]⟩]).append hsums
    rw [nil_append, Nat.zero_add] at hfound
    exact hfound

/-- The reports of the inputs of a printing batch add up. -/
theorem sums_run {b : Batch} (hb : b.toOutput) {result : Path → Except String (List Path)}
    (h : ∀ input, (units input : StateM FileTree _) t = (result input, t)) :
    ∃ report, (b.run : StateM FileTree _) t = (report, t) ∧
      report.Sums
        ((b.inputs.flatMap fun input => (result input).toOption.getD []).filterMap t.printout?)
        ((b.inputs.flatMap fun input => (result input).toOption.getD []).countP
            (fun source => (t.printout? source).isNone) +
          b.inputs.countP fun input => (result input).toOption.isNone) := by
  rw [filterMap_flatMap]
  refine sums_runEach (fun inputs =>
    (inputs.flatMap fun input => (result input).toOption.getD []).countP _ +
    inputs.countP _) rfl (fun input rest => ?_) b.inputs
  obtain ⟨report, hrun, hsums⟩ := sums_runInput hb (h input)
  refine ⟨report, _, hrun, hsums, ?_⟩
  rw [flatMap_cons, countP_append, countP_cons]
  cases (result input).toOption.isNone with
  | false =>
    simp only [Bool.toNat_false, Bool.false_eq_true, if_false]
    omega
  | true =>
    simp only [Bool.toNat_true, if_true]
    omega

/-- A batch that prints leaves the tree as it is.  It prints the printouts of the source files that
have one, in the order of the inputs; these are counted as compiled, and as failed the other source
files and the inputs that are missing.  An input none of whose source files has a printout, or that
is missing, could be left out: the same is printed and as many are compiled. -/
theorem run_prints {b : Batch} {t : FileTree} (hmap : t.IsMap) (hb : b.toOutput = true) :
    ∃ (collected : Path → Option (List Path)) (report : Report),
      (∀ input, t.Collects input (collected input)) ∧
      let units := b.inputs.flatMap fun input => (collected input).getD []
      (b.run : StateM FileTree _).run t = (report, t) ∧
      report.printed = String.join (units.filterMap t.printout?) ∧
      report.compiled = (units.filterMap t.printout?).length ∧
      report.failed = units.countP (fun source => (t.printout? source).isNone) +
        b.inputs.countP (fun input => (collected input).isNone) ∧
      ∀ front input back, b.inputs = front ++ input :: back →
        (∀ source ∈ (collected input).getD [], t.printout? source = none) →
        ∃ without : Report,
          ({ b with inputs := front ++ back }.run : StateM FileTree _).run t = (without, t) ∧
          without.printed = report.printed ∧ without.compiled = report.compiled := by
  choose result hunits hcollects using exists_units hmap
  obtain ⟨report, hrun, hsums⟩ := sums_run hb hunits
  refine ⟨fun input => (result input).toOption, report, hcollects, hrun, hsums.printed,
    hsums.compiled,
    hsums.failed, ?_⟩
  intro front input back hinputs hnone
  obtain ⟨without, hwithout, hsums'⟩ := sums_run (b := { b with inputs := front ++ back }) hb hunits
  have hsame : (b.inputs.flatMap fun input =>
    (result input).toOption.getD []).filterMap t.printout? =
      ((front ++ back).flatMap fun input => (result input).toOption.getD []).filterMap
        t.printout? := by
    rw [hinputs, flatMap_append, flatMap_append, flatMap_cons, filterMap_append,
      filterMap_append, filterMap_append, filterMap_eq_nil_iff.mpr hnone,
        nil_append]
  refine ⟨without, hwithout, ?_, ?_⟩
  · rw [hsums'.printed, hsums.printed, hsame]
  · rw [hsums'.compiled, hsums.compiled, hsame]

/-- A directory with a file that does not compile, a missing input, a file that is no text, and a
file twice. Leaving out the file that is no text changes nothing of what is printed. -/
theorem run_prints_mixed :
    ∃ (b : Batch) (t : FileTree) (report without : Report),
      b = { inputs := [⟨"d"⟩, ⟨"gone.py"⟩, ⟨"e.py"⟩, ⟨"d/b.py"⟩], toOutput := true } ∧
      t.nodes = [(["d"], .directory), (["d", "b.py"], .file (.text "x = 1\n")),
        (["d", "a.py"], .file (.text "x =\n")), (["d", "n.txt"], .file (.text "y = 2\n")),
        (["e.py"], .file .binary)] ∧
      (b.run : StateM FileTree _).run t = (report, t) ∧
      report.printed = "# d/b.py\nx = 1\n# d/b.py\nx = 1\n" ∧ report.compiled = 2 ∧
        report.failed = 3 ∧
      ({ b with inputs := [⟨"d"⟩, ⟨"gone.py"⟩, ⟨"d/b.py"⟩] }.run : StateM FileTree _).run t =
        (without, t) ∧
      without.printed = report.printed ∧ without.compiled = report.compiled := by
  obtain ⟨b, hb⟩ : ∃ b : Batch,
    b = { inputs := [⟨"d"⟩, ⟨"gone.py"⟩, ⟨"e.py"⟩, ⟨"d/b.py"⟩], toOutput := true } := ⟨_, rfl⟩
  obtain ⟨t, ht⟩ : ∃ t : FileTree, t =
    ⟨[(["d"], .directory), (["d", "b.py"], .file (.text "x = 1\n")),
    (["d", "a.py"], .file (.text "x =\n")), (["d", "n.txt"], .file (.text "y = 2\n")),
    (["e.py"], .file .binary)], []⟩ := ⟨_, rfl⟩
  have hmap : t.IsMap := by
    rw [ht]
    decide
  have hdirectory : t.Collects ⟨"d"⟩ (some [⟨"d/a.py"⟩, ⟨"d/b.py"⟩]) := by
    have hplace : t.directoryPlace ⟨"d"⟩ = .ok ["d"] := by
      rw [ht]
      decide +kernel
    have hordered : ["a.py", "b.py"].Pairwise (· < ·) := by decide +kernel
    refine .directory hplace hordered fun name =>
      ⟨fun hname => ?_, fun ⟨⟨contents, hnode⟩, hpy⟩ => ?_⟩
    · rcases mem_pair.mp hname with rfl | rfl
      · exact ⟨⟨.text "x =\n", by rw [ht]; decide +kernel⟩, by decide +kernel⟩
      · exact ⟨⟨.text "x = 1\n", by rw [ht]; decide +kernel⟩, by decide +kernel⟩
    · rw [FileTree.node?_concat, FileTree.lookup_eq_some_iff_mem hmap] at hnode
      have hplaces : ["d", name] ∈ t.nodes.map Prod.fst := mem_map.mpr ⟨_, hnode, rfl⟩
      have hlisted : name = "b.py" ∨ name = "a.py" ∨ name = "n.txt" := by simpa [ht] using hplaces
      rcases hlisted with rfl | rfl | rfl
      · decide
      · decide
      · exact absurd hpy (by decide +kernel)
  have hmissing : t.Collects ⟨"gone.py"⟩ none := by
    have hfind : t.find ⟨"gone.py"⟩ = .error .notFound := by
      rw [ht]
      decide +kernel
    exact .missing hfind
  have hbinary : t.Collects ⟨"e.py"⟩ (some [⟨"e.py"⟩]) := by
    have hfind : t.find ⟨"e.py"⟩ = .ok (.file .binary) := by
      rw [ht]
      decide +kernel
    exact .file hfind
  have hfile : t.Collects ⟨"d/b.py"⟩ (some [⟨"d/b.py"⟩]) := by
    have hfind : t.find ⟨"d/b.py"⟩ = .ok (.file (.text "x = 1\n")) := by
      rw [ht]
      decide +kernel
    exact .file hfind
  have htoOutput : b.toOutput = true := by rw [hb]
  obtain ⟨collected, report, hcollects, hrun, hprinted, hcompiled, hfailed, hwithout⟩ :=
    run_prints hmap htoOutput
  have hd := (hcollects _).unique hdirectory
  have hgone := (hcollects _).unique hmissing
  have he := (hcollects _).unique hbinary
  have hdb := (hcollects _).unique hfile
  have hunits : (b.inputs.flatMap fun input => (collected input).getD []) =
      [⟨"d/a.py"⟩, ⟨"d/b.py"⟩, ⟨"e.py"⟩, ⟨"d/b.py"⟩] := by
    simp [hb, hd, hgone, he, hdb]
  have hprintouts : [⟨"d/a.py"⟩, ⟨"d/b.py"⟩, ⟨"e.py"⟩, ⟨"d/b.py"⟩].filterMap t.printout? =
      ["# d/b.py\nx = 1\n", "# d/b.py\nx = 1\n"] := by
    rw [ht]
    decide +kernel
  have hfailures : [⟨"d/a.py"⟩, ⟨"d/b.py"⟩, ⟨"e.py"⟩, ⟨"d/b.py"⟩].countP
      (fun source => (t.printout? source).isNone) = 2 := by
    rw [ht]
    decide +kernel
  have hnone : t.printout? ⟨"e.py"⟩ = none := by
    rw [ht]
    decide +kernel
  have hleft : ∀ source ∈ (collected ⟨"e.py"⟩).getD [], t.printout? source = none := by
    rw [he]
    exact forall_mem_singleton.mpr hnone
  have hinputs : b.inputs = [⟨"d"⟩, ⟨"gone.py"⟩] ++ ⟨"e.py"⟩ :: [⟨"d/b.py"⟩] := by
    rw [hb]
    rfl
  obtain ⟨without, hrun', hsame⟩ := hwithout _ _ _ hinputs hleft
  rw [hunits] at hprinted hcompiled hfailed
  refine ⟨b, t, report, without, hb, by rw [ht], hrun, ?_, ?_, ?_, hrun', hsame⟩
  · rw [hprinted, hprintouts]
    decide
  · rw [hcompiled, hprintouts]
    rfl
  · rw [hfailed, hfailures]
    simp [hb, hd, hgone, he, hdb]

end Batch

end Offside
