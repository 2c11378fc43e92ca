import Offside.Files.Tree
import Offside.Proofs.Outcome

/-!
# Trees as maps

A file tree is a map if each place has at most one node (`IsMap`).  Then a directory lists exactly
the nodes right below it, each name once and in the order of the names (`exists_place_of_entries`).
-/

namespace Offside

open List

namespace FileTree

variable {t : FileTree} {place : Place}

/-- No place has more than one node. -/
def IsMap (t : FileTree) : Prop := (t.nodes.map Prod.fst).Nodup

instance (t : FileTree) : Decidable t.IsMap := inferInstanceAs (Decidable (List.Nodup _))

theorem lookup_cons_eq_ite (place other : Place) (node : Node) (rest : List (Place × Node)) :
    ((place, node) :: rest).lookup other = if other =
      place then some node else rest.lookup other := by
  rw [lookup_cons]
  by_cases hother : other = place
  · rw [if_pos hother, beq_iff_eq.mpr hother]
  · rw [if_neg hother, beq_eq_false_iff_ne.mpr hother]

theorem lookup_eq_some_iff_mem {nodes : List (Place × Node)} (h : (nodes.map Prod.fst).Nodup)
    {node : Node} :
    nodes.lookup place = some node ↔ (place, node) ∈ nodes := by
  induction nodes with
  | nil => simp
  | cons first rest ih =>
    obtain ⟨other, found⟩ := first
    rw [map_cons, nodup_cons] at h
    rw [lookup_cons_eq_ite, mem_cons, Prod.mk.injEq]
    by_cases hplace : place = other
    · subst hplace
      have hrest : (place, node) ∉ rest := fun hmem => h.1 (mem_map.mpr ⟨_, hmem, rfl⟩)
      simp [hrest, eq_comm]
    · simp [hplace, ih h.2]

theorem node?_concat (t : FileTree) (place : Place) (name : String) :
    t.node? (place ++ [name]) = t.nodes.lookup (place ++ [name]) :=
  if_neg (append_ne_nil_of_right_ne_nil place (cons_ne_nil name []))

/-! ## Steps -/

theorem change_of_ok {step : FileTree → Except FileError FileTree} {t' : FileTree}
    (h : step t = .ok t') :
    change step t = (.ok (), t') := by
  rw [change, h]

theorem change_of_error {step : FileTree → Except FileError FileTree} {e : FileError}
    (h : step t = .error e) : change step t = (.error e, t) := by
  rw [change, h]

theorem run_isDirectory (t : FileTree) (path : Path) :
    (Files.isDirectory path : StateM FileTree _) t = ((t.find path).map (· == .directory), t) :=
  rfl

theorem run_entries (t : FileTree) (path : Path) :
    (Files.entries path : StateM FileTree _) t = (t.entries path, t) :=
  rfl

theorem run_read (t : FileTree) (path : Path) :
    (Files.read path : StateM FileTree _) t = (t.read path, t) :=
  rfl

/-! ## Directories -/

/-- What stands in a directory is at the places right below it. -/
theorem mem_children_iff {name : String} {node : Node} :
    (name, node) ∈ t.children place ↔ (place ++ [name], node) ∈ t.nodes := by
  rw [children, mem_filterMap]
  constructor
  · rintro ⟨⟨other, found⟩, hmem, hchild⟩
    dsimp only at hchild
    split at hchild
    · rename_i last hlast
      split at hchild
      · rename_i hplace
        cases hchild
        obtain ⟨front, rfl⟩ := getLast?_eq_some_iff.mp hlast
        rwa [← hplace, dropLast_concat]
      · cases hchild
    · cases hchild
  · intro hmem
    refine ⟨(place ++ [name], node), hmem, ?_⟩
    simp

theorem sublist_children (nodes : List (Place × Node)) (directory place : Place) :
    ((children ⟨nodes, directory⟩ place).map fun x => place ++ [x.1]).Sublist
      (nodes.map Prod.fst) := by
  induction nodes with
  | nil => exact .slnil
  | cons first rest ih =>
    obtain ⟨other, node⟩ := first
    unfold children at ih ⊢
    rw [filterMap_cons, map_cons]
    dsimp only at ih ⊢
    split
    · exact ih.cons _
    · rename_i x hx
      split at hx
      · rename_i last hlast
        split at hx
        · rename_i hplace
          cases hx
          obtain ⟨front, rfl⟩ := getLast?_eq_some_iff.mp hlast
          rw [dropLast_concat] at hplace
          subst hplace
          exact ih.cons_cons _
        · cases hx
      · cases hx

theorem nodup_children (h : t.IsMap) (place : Place) : ((t.children place).map Prod.fst).Nodup := by
  have hplaces : ((t.children place).map fun x => place ++ [x.1]).Nodup :=
    h.sublist (sublist_children t.nodes t.workingDirectory place)
  rw [List.Nodup, pairwise_map] at hplaces ⊢
  exact hplaces.imp fun hne heq => hne (by rw [heq])

theorem find_of_directoryPlace {path : Path} (h : t.directoryPlace path = .ok place) :
    t.find path = .ok .directory := by
  obtain ⟨node, hfind, h⟩ := exists_of_bind_eq_ok h
  cases node with
  | directory => exact hfind
  | file contents => cases h

theorem exists_entries {path : Path} (h : t.find path = .ok .directory) :
    ∃ entries, t.entries path = .ok entries := by
  have hfollow : ∃ place, t.follow (t.start path) path.segments = .ok place := by
    obtain ⟨_, -, hnode⟩ := exists_of_bind_eq_ok h
    obtain ⟨place, hplace, -⟩ := exists_of_bind_eq_ok hnode
    exact ⟨place, hplace⟩
  obtain ⟨place, hplace⟩ := hfollow
  have hdirectory : t.directoryPlace path = .ok place := by
    rw [directoryPlace, h]
    exact hplace
  exact ⟨_, by rw [entries, hdirectory]; rfl⟩

/-- Entries with different names are in the strict order of their names when they are sorted. -/
theorem pairwise_name_mergeSort {listed : List Entry} (h : (listed.map Entry.name).Nodup) :
    ((listed.mergeSort fun a b => decide (a.name ≤ b.name)).map Entry.name).Pairwise (· < ·) := by
  have hordered : (listed.mergeSort fun a b => decide (a.name ≤ b.name)).Pairwise
      fun a b => decide (a.name ≤ b.name) :=
    pairwise_mergeSort (by simpa using fun a b c => String.le_trans)
      (by simpa using fun a b => String.le_total _ _) listed
  have hnodup : ((listed.mergeSort fun a b => decide (a.name ≤ b.name)).map Entry.name).Nodup :=
    ((mergeSort_perm listed _).map Entry.name).nodup_iff.mpr h
  rw [List.Nodup, pairwise_map] at hnodup
  rw [pairwise_map]
  refine (hordered.and hnodup).imp fun ⟨hle, hne⟩ => String.not_le.mp fun hge => hne ?_
  exact String.le_antisymm (of_decide_eq_true hle) hge

/-- A directory lists the nodes right below its place, each name once and in the order of the names.
-/
theorem exists_place_of_entries (h : t.IsMap) {path : Path} {entries : List Entry}
    (hentries : t.entries path = .ok entries) :
    ∃ place, t.directoryPlace path = .ok place ∧ (entries.map Entry.name).Pairwise (· < ·) ∧
      ∀ entry, entry ∈ entries ↔
        ∃ node, t.node? (place ++ [entry.name]) = some node ∧
          entry.isFile = (node != .directory) := by
  obtain ⟨place, hplace, hentries⟩ := exists_of_bind_eq_ok hentries
  cases hentries
  refine ⟨place, hplace, ?_, ?_⟩
  · refine pairwise_name_mergeSort ?_
    rw [map_map]
    exact nodup_children h place
  · intro entry
    rw [mem_mergeSort, mem_map]
    constructor
    · rintro ⟨⟨name, node⟩, hmem, rfl⟩
      rw [mem_children_iff, ← lookup_eq_some_iff_mem h, ← node?_concat] at hmem
      exact ⟨node, hmem, rfl⟩
    · rintro ⟨node, hnode, hfile⟩
      rw [node?_concat, lookup_eq_some_iff_mem h, ← mem_children_iff] at hnode
      refine ⟨_, hnode, ?_⟩
      obtain ⟨name, isFile⟩ := entry
      exact congrArg (Entry.mk name) hfile.symm

end FileTree

end Offside
