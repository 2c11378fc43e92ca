import Offside.Proofs.Files.Tree

/-!
# Places of paths

A path leads to one place, which its segments alone determine (`placeOf`): where a path can be
followed, it is followed to there.  Trees that only gain directories and files keep the paths that
can be followed (`Grows`).  Making a directory changes no file (`grows_makeDirectory`), and writing
a file changes the one at the place of its path (`grows_write`).
-/

namespace Offside

open List

namespace FileTree

variable {t t' : FileTree} {place found : Place} {path : Path}

/-- Where a segment of a path leads from a place, if it can be followed. -/
def step (place : Place) (segment : String) : Place :=
  if Path.isVoid segment then place else if segment =
    ".." then place.dropLast else place ++ [segment]

/-- Where a path leads, if it can be followed. -/
def placeOf (t : FileTree) (path : Path) : Place := path.segments.foldl step (t.start path)

/-- What the file at a place holds. -/
def fileAt? (t : FileTree) (place : Place) : Option Contents :=
  match t.node? place with
  | some (.file contents) => some contents
  | _ => none

theorem node?_of_fileAt? {contents : Contents} (h : t.fileAt? place = some contents) :
    t.node? place = some (.file contents) := by
  unfold fileAt? at h
  split at h
  · rename_i hnode
    rwa [← Option.some.inj h]
  · cases h

/-! ## Following paths -/

theorem of_enter {segment : String} (h : t.enter place segment = .ok found) :
    t.node? place = some .directory ∧ found = step place segment := by
  unfold enter at h
  split at h
  · cases h
  · cases h
  · rename_i hnode
    refine ⟨hnode, ?_⟩
    unfold step
    split at h
    · cases h
      exact (if_pos ‹_›).symm
    · rw [if_neg ‹_›]
      split at h
      · cases h
        exact (if_pos ‹_›).symm
      · rw [if_neg ‹_›]
        split at h
        · cases h
        · cases h
          rfl

/-- Whether a segment can be followed depends on the directory alone. -/
theorem enter_of_directory {segment : String} (h : t.enter place segment = .ok found)
    (hnode : t'.node? place = some .directory) : t'.enter place segment = .ok found := by
  have hdirectory := (of_enter h).1
  unfold enter at h ⊢
  rw [hdirectory] at h
  rw [hnode]
  exact h

variable {segments : List String}

theorem of_follow (h : t.follow place segments = .ok found) :
    found = segments.foldl step place := by
  induction segments generalizing place with
  | nil =>
    cases h
    rfl
  | cons segment rest ih =>
    rw [follow, foldlM_cons] at h
    obtain ⟨next, hnext, h⟩ := exists_of_bind_eq_ok h
    rw [foldl_cons, ← (of_enter hnext).2]
    exact ih h

theorem follow_mono
    (hgrows : ∀ place, t.node? place = some .directory → t'.node? place = some .directory)
    (h : t.follow place segments = .ok found) : t'.follow place segments = .ok found := by
  induction segments generalizing place with
  | nil => exact h
  | cons segment rest ih =>
    rw [follow, foldlM_cons] at h ⊢
    obtain ⟨next, hnext, h⟩ := exists_of_bind_eq_ok h
    rw [enter_of_directory hnext (hgrows place (of_enter hnext).1)]
    exact ih h

/-- A path that is found leads to its place. -/
theorem node?_of_find {node : Node} (h : t.find path = .ok node) :
    t.node? (t.placeOf path) = some node := by
  obtain ⟨_, -, h⟩ := exists_of_bind_eq_ok h
  obtain ⟨place, hplace, h⟩ := exists_of_bind_eq_ok h
  rw [placeOf, ← of_follow hplace]
  split at h
  · rename_i hnode
    cases h
    exact hnode
  · cases h

theorem text_ne_of_checkPath {u : Unit} (h : checkPath path = .ok u) : path.text ≠ "" := by
  intro htext
  rw [checkPath, htext] at h
  cases h

theorem find_eq {node : Node} {u : Unit} (hcheck : checkPath path = .ok u)
    (hfollow : t.follow (t.start path) path.segments = .ok place)
    (hnode : t.node? place = some node) :
    t.find path = .ok node := by
  unfold find
  rw [hcheck, hfollow]
  dsimp only [bind, Except.bind]
  rw [hnode]
  rfl

theorem fileAt?_of_read {text : String} (h : t.read path = .ok text) :
    t.fileAt? (t.placeOf path) = some (.text text) := by
  obtain ⟨node, hfind, h⟩ := exists_of_bind_eq_ok h
  unfold fileAt?
  rw [node?_of_find hfind]
  split at h
  · cases h
  · cases h
  · cases h
    rfl

/-! ## Nodes that are put -/

theorem lookup_put (nodes : List (Place × Node)) (place other : Place) (node : Node) :
    (nodes.filter (·.1 != place) ++ [(place, node)]).lookup other =
      if other = place then some node else nodes.lookup other := by
  induction nodes with
  | nil => exact lookup_cons_eq_ite place other node []
  | cons first rest ih =>
    obtain ⟨place', node'⟩ := first
    rw [lookup_cons_eq_ite]
    by_cases hplace : place' = place
    · subst hplace
      rw [filter_cons_of_neg (by simp), ih]
      by_cases hother : other = place'
      · rw [if_pos hother, if_pos hother]
      · rw [if_neg hother, if_neg hother, if_neg hother]
    · rw [filter_cons_of_pos (by simpa using hplace), cons_append, lookup_cons_eq_ite, ih]
      by_cases hother : other = place'
      · rw [if_pos hother, if_neg (hother ▸ hplace), if_pos hother]
      · rw [if_neg hother, if_neg hother]

/-- A node that is put below the root is at its place, and all others are where they were. -/
theorem node?_put (t : FileTree) (h : place ≠ []) (node : Node) (other : Place) :
    (t.put place node).node? other = if other = place then some node else t.node? other := by
  unfold node? put
  rw [lookup_put]
  by_cases hother : other = []
  · subst hother
    simp [Ne.symm h]
  · simp [hother]

/-! ## Last segments -/

theorem splitAtSlash_ne_nil (cs : List Char) : splitAtSlash cs ≠ [] := by
  cases cs with
  | nil => exact cons_ne_nil _ _
  | cons c rest =>
    rw [splitAtSlash]
    split
    · exact cons_ne_nil _ _
    · split
      · exact cons_ne_nil _ _
      · exact cons_ne_nil _ _

/-- The last part of a text is empty only behind a slash. -/
theorem eq_nil_or_slash_of_splitAtSlash {cs : List Char}
    (h : (splitAtSlash cs).getLast? = some []) :
    cs = [] ∨ cs.getLast? = some '/' := by
  induction cs with
  | nil => exact .inl rfl
  | cons c rest ih =>
    right
    rw [getLast?_cons]
    rw [splitAtSlash] at h
    split at h
    · exact absurd ‹_› (splitAtSlash_ne_nil rest)
    · rename_i first others hrest
      rw [hrest] at ih
      split at h
      · rename_i hslash
        rw [getLast?_cons_cons] at h
        rcases ih h with rfl | hlast
        · rw [hslash]
          rfl
        · rw [hlast]
          rfl
      · cases others with
        | nil => simp at h
        | cons second others =>
          rw [getLast?_cons_cons] at h ih
          rcases ih h with rfl | hlast
          · cases hrest
          · rw [hlast]
            rfl

/-- A path that does not end with a slash ends with a segment that is not empty. -/
theorem trimmedReversed_eq (hpath : path.text ≠ "")
    (hslash : ['/'].isSuffixOf path.text.toList = false) :
    trimmedReversed path = path.segments.reverse := by
  have hlast : path.segments.getLast? ≠ some "" := by
    intro hlast
    rw [Path.segments, getLast?_map] at hlast
    obtain ⟨part, hpart, hempty⟩ := Option.map_eq_some_iff.mp hlast
    obtain rfl : part = [] := by simpa using hempty
    rcases eq_nil_or_slash_of_splitAtSlash hpart with htext | htext
    · exact hpath (by simpa using htext)
    · obtain ⟨front, hfront⟩ := getLast?_eq_some_iff.mp htext
      have hsuffix : ['/'].isSuffixOf path.text.toList := by
        rw [isSuffixOf_iff_suffix, hfront]
        exact suffix_append front ['/']
      exact absurd (hslash.symm.trans hsuffix) Bool.false_ne_true
  unfold trimmedReversed
  rw [← head?_reverse] at hlast
  cases hsegments : path.segments.reverse with
  | nil => rfl
  | cons last before =>
    rw [hsegments] at hlast
    exact dropWhile_cons_of_neg (by simpa using hlast)

theorem foldl_step_empty (h : ∀ segment ∈ segments, segment = "") (place : Place) :
    segments.foldl step place = place := by
  induction segments with
  | nil => rfl
  | cons segment rest ih =>
    rw [foldl_cons, h segment mem_cons_self]
    exact ih fun s hs => h s (mem_cons_of_mem _ hs)

/-- The segments that are empty at the end do not count for the place. -/
theorem placeOf_eq_trimmed (t : FileTree) (path : Path) :
    t.placeOf path = (trimmedReversed path).reverse.foldl step (t.start path) := by
  have hsegments : path.segments =
      (trimmedReversed path).reverse ++ (path.segments.reverse.takeWhile (· == "")).reverse := by
    rw [← reverse_append, trimmedReversed, takeWhile_append_dropWhile, reverse_reverse]
  have hempty : ∀ segment ∈ (path.segments.reverse.takeWhile (· == "")).reverse, segment = "" := by
    intro segment hsegment
    have hall := all_eq_true.mp all_takeWhile segment (mem_reverse.mp hsegment)
    exact beq_iff_eq.mp hall
  rw [placeOf, hsegments, foldl_append, foldl_step_empty hempty]

/-- The last segment of a path that names something is the last name of its place. -/
theorem follow_of_parentPlace {name : String} (h : t.parentPlace path = .ok (place, name))
    (hname : (Path.isVoid name || name == "..") = false) :
    t.follow (t.start path) (trimmedReversed path).reverse = .ok (place ++ [name]) := by
  obtain ⟨_, -, h⟩ := exists_of_bind_eq_ok h
  split at h
  · cases h
    cases hname
  · rename_i last before htrimmed
    obtain ⟨directory, hfollow, h⟩ := exists_of_bind_eq_ok h
    obtain ⟨_, henter, h⟩ := exists_of_bind_eq_ok h
    cases h
    have hstep : step place name = place ++ [name] := by
      rw [Bool.or_eq_false_iff, beq_eq_false_iff_ne] at hname
      rw [step, hname.1, if_neg Bool.false_ne_true, if_neg hname.2]
    obtain ⟨found, hfound⟩ : ∃ found, t.enter place name = .ok found := by
      cases hfound : t.enter place name with
      | error e =>
        rw [hfound] at henter
        cases henter
      | ok found => exact ⟨found, rfl⟩
    rw [htrimmed, reverse_cons, follow, foldlM_append]
    unfold follow at hfollow
    rw [hfollow]
    change (t.enter place name >>= pure) = _
    rw [bind_pure, hfound, (of_enter hfound).2, hstep]

/-! ## Changes -/

/-- The tree `t'` has the directories of `t`. -/
structure Grows (t t' : FileTree) : Prop where
  workingDirectory : t'.workingDirectory = t.workingDirectory
  directory : ∀ place, t.node? place = some .directory → t'.node? place = some .directory

theorem Grows.refl (t : FileTree) : Grows t t := ⟨rfl, fun _ h => h⟩

theorem Grows.trans {t'' : FileTree} (h : Grows t t') (h' : Grows t' t'') : Grows t t'' :=
  ⟨h'.workingDirectory.trans h.workingDirectory, fun place hplace =>
    h'.directory place (h.directory place hplace)⟩

theorem Grows.start_eq (h : Grows t t') (path : Path) : t'.start path = t.start path := by
  rw [start, start, h.workingDirectory]

theorem Grows.placeOf_eq (h : Grows t t') (path : Path) : t'.placeOf path = t.placeOf path := by
  rw [placeOf, placeOf, h.start_eq]

theorem grows_put (hplace : place ≠ []) (hnode : t.node? place ≠ some .directory) (node : Node) :
    Grows t (t.put place node) := by
  refine ⟨rfl, fun other hother => ?_⟩
  have hne : other ≠ place := fun heq => hnode (heq ▸ hother)
  rw [node?_put t hplace, if_neg hne]
  exact hother

/-- A path that was found once is found as long as the tree only grows, with what is at its place
now. -/
theorem Grows.read_eq (h : Grows t t') {node : Node} (hfind : t.find path = .ok node)
    {text : String} (htext : t'.fileAt? (t.placeOf path) = some (.text text)) :
    t'.read path = .ok text := by
  obtain ⟨_, hcheck, hfind⟩ := exists_of_bind_eq_ok hfind
  obtain ⟨place, hplace, -⟩ := exists_of_bind_eq_ok hfind
  rw [placeOf, ← of_follow hplace] at htext
  have hfollow := follow_mono h.directory hplace
  rw [← h.start_eq] at hfollow
  have hnode : t'.node? place = some (.file (.text text)) := node?_of_fileAt? htext
  rw [read, find_eq hcheck hfollow hnode]
  rfl

/-- Making a directory changes no file. -/
theorem grows_makeDirectory (h : t.makeDirectory path = .ok t') :
    Grows t t' ∧ ∀ place, t'.fileAt? place = t.fileAt? place := by
  obtain ⟨⟨place, name⟩, -, h⟩ := exists_of_bind_eq_ok h
  dsimp only at h
  split at h
  · cases h
  · split at h
    · cases h
    · rename_i hsome
      cases h
      have hnone : t.node? (place ++ [name]) = none := by simpa using hsome
      have hne : place ++ [name] ≠ [] := by simp
      refine ⟨grows_put hne (by simp [hnone]) _, fun other => ?_⟩
      rw [fileAt?, fileAt?, node?_put t hne]
      by_cases hother : other = place ++ [name]
      · rw [if_pos hother, hother, hnone]
      · rw [if_neg hother]

/-- Writing a file changes the file at the place of its path, and no other.  What was written is
found there. -/
theorem grows_write {contents : Contents} (h : t.write path contents = .ok t') :
    Grows t t' ∧ t'.find path = .ok (.file contents) ∧
      ∀ place, t'.fileAt? place = if place =
        t.placeOf path then some contents else t.fileAt? place := by
  obtain ⟨⟨place, name⟩, hparent, h⟩ := exists_of_bind_eq_ok h
  obtain ⟨_, hcheck, -⟩ := exists_of_bind_eq_ok hparent
  dsimp only at h
  split at h
  · cases h
  · rename_i hname
    rw [Bool.not_eq_true, Bool.or_eq_false_iff] at hname
    have hfollow := follow_of_parentPlace hparent hname.1
    have hplace : t.placeOf path = place ++ [name] := by rw [placeOf_eq_trimmed, of_follow hfollow]
    have hne : place ++ [name] ≠ [] := by simp
    rw [trimmedReversed_eq (text_ne_of_checkPath hcheck) hname.2, reverse_reverse] at hfollow
    split at h
    · cases h
    · rename_i hnode
      cases h
      have hgrows := grows_put (t := t) hne hnode (.file contents)
      refine ⟨hgrows, ?_, fun other => ?_⟩
      · refine find_eq hcheck (hgrows.start_eq path ▸ follow_mono hgrows.directory hfollow) ?_
        rw [node?_put t hne, if_pos rfl]
      · rw [hplace, fileAt?, fileAt?, node?_put t hne]
        by_cases hother : other = place ++ [name]
        · rw [if_pos hother, if_pos hother]
        · rw [if_neg hother, if_neg hother]

end FileTree

end Offside
