import Offside.Proofs.Julia.Tree

/-!
# Ranges in rows

The colons of a row are put together two by two from the left: a range with a step is complete, and
a further colon starts a range from it, while a range without a step takes what follows the next
colon as its last value.  So what stands before a colon stays one operand exactly if it holds no
colon outside brackets or is a range with a step (`Tree.isHead`), and a step stays one operand
exactly if it holds no colon.
-/

namespace Offside.Julia

open List

/-- Whether a tree stays one operand before a colon. -/
def Tree.isHead : Tree → Bool
  | .range _ step _ => step.isSome
  | t => decide (.range < t.level)

variable {xs : List Tree} {first t : Tree}

theorem Tree.isHead_of_lt (h : .range < t.level) : t.isHead := by
  cases t with
  | range first step last => exact absurd h (Nat.lt_irrefl _)
  | _ => exact decide_eq_true h

/-- What stays one operand before a colon is no looser than a range. -/
theorem Tree.range_le_of_isHead (h : t.isHead) : .range ≤ t.level := by
  cases t with
  | range first step last => exact Nat.le_refl _
  | _ => exact Nat.le_of_lt (of_decide_eq_true h)

/-! ## Operands with colons between them -/

/-- An operand behind an even number of colons is the last value of a range without a step. -/
theorem ranges_concat (first : Tree) (h : xs.length % 2 = 0) (last : Tree) :
    ranges first (xs ++ [last]) = .range (ranges first xs) none last :=
  ranges_append first xs [last] h

/-- Two operands behind an even number of colons are the step and the last value of a range. -/
theorem ranges_concat_concat (first : Tree) (h : xs.length % 2 = 0) (step last : Tree) :
    ranges first (xs ++ [step, last]) = .range (ranges first xs) (some step) last :=
  ranges_append first xs [step, last] h

/-- Behind an odd number of colons, the operand before the last one is a step. -/
theorem exists_ranges_concat (first : Tree) (h : xs.length % 2 = 1) (last : Tree) :
    ∃ init step, xs = init ++ [step] ∧ init.length % 2 = 0 ∧
      ranges first (xs ++ [last]) = .range (ranges first init) (some step) last := by
  have hne : xs ≠ [] := by
    rintro rfl
    simp at h
  obtain ⟨init, step, rfl⟩ : ∃ init step, xs = init ++ [step] :=
    ⟨_, _, (dropLast_concat_getLast hne).symm⟩
  have hinit : init.length % 2 = 0 := by
    rw [length_append, length_singleton] at h
    omega
  refine ⟨init, step, rfl, hinit, ?_⟩
  rw [append_assoc]
  exact ranges_concat_concat first hinit step last

/-- Operands with colons between them stay one operand before a further colon exactly if their
colons are even in number. -/
theorem isHead_ranges_iff (hfirst : .range < first.level) (xs : List Tree) :
    (ranges first xs).isHead ↔ xs.length % 2 = 0 := by
  by_cases hnil : xs = []
  · rw [hnil]
    exact ⟨fun _ => rfl, fun _ => Tree.isHead_of_lt hfirst⟩
  obtain ⟨init, last, rfl⟩ : ∃ init last, xs = init ++ [last] :=
    ⟨_, _, (dropLast_concat_getLast hnil).symm⟩
  have hlength : (init ++ [last]).length = init.length + 1 := by simp
  rcases Nat.mod_two_eq_zero_or_one init.length with heven | hodd
  · rw [ranges_concat first heven last, hlength]
    exact ⟨fun h => absurd h (by simp [Tree.isHead]), fun h => by omega⟩
  · obtain ⟨_, _, -, -, hranges⟩ := exists_ranges_concat first hodd last
    rw [hranges, hlength]
    exact ⟨fun _ => by omega, fun _ => rfl⟩

/-- An operand is the last value of a range without a step behind an even number of colons only. -/
theorem even_of_ranges_eq {last u : Tree} (h : ranges first (xs ++ [last]) = .range t none u) :
    xs.length % 2 = 0 := by
  rcases Nat.mod_two_eq_zero_or_one xs.length with heven | hodd
  · exact heven
  · obtain ⟨init, step, -, -, hranges⟩ := exists_ranges_concat first hodd last
    rw [hranges] at h
    cases (Tree.range.inj h).2.1

/-- The step of a range is the operand before the last one. -/
theorem exists_of_ranges_eq {last step u : Tree}
    (h : ranges first (xs ++ [last]) = .range t (some step) u) :
    ∃ init, xs = init ++ [step] ∧ init.length % 2 = 0 := by
  rcases Nat.mod_two_eq_zero_or_one xs.length with heven | hodd
  · rw [ranges_concat first heven] at h
    cases (Tree.range.inj h).2.1
  · obtain ⟨init, step', hxs, hinit, hranges⟩ := exists_ranges_concat first hodd last
    rw [hranges] at h
    obtain rfl : step' = step := Option.some.inj (Tree.range.inj h).2.1
    exact ⟨init, hxs, hinit⟩

/-- The last of several operands with colons between them is a part of what they are read as. -/
theorem sizeOf_lt_ranges (first : Tree) (xs : List Tree) (last : Tree) :
    sizeOf last < sizeOf (ranges first (xs ++ [last])) := by
  rcases Nat.mod_two_eq_zero_or_one xs.length with heven | hodd
  · rw [ranges_concat first heven, Tree.range.sizeOf_spec]
    omega
  · obtain ⟨init, step, -, -, hranges⟩ := exists_ranges_concat first hodd last
    rw [hranges, Tree.range.sizeOf_spec]
    omega

/-! ## Rows with colons -/

namespace Row

variable (assoc : Association)

theorem range_mem : Level.range ∈ linkLevels := by decide

theorem first_cut (level : Level) (r : Row) : (r.cut level).1.first = r.first := by
  obtain ⟨first, rest⟩ := r
  change (cutFrom level first rest).1.first = first
  cases rest with
  | nil => rfl
  | cons x rest =>
    rw [cutFrom]
    split <;> rfl

variable {r : Row}

/-- A row without looser operators is cut at its colons. -/
theorem resolve_eq_ranges (hr : r.From .range) :
    r.resolve assoc = ranges ((r.cut .range).1.resolve assoc) ((r.cut .range).2.map fun x =>
      x.2.resolve assoc) := by
  rw [resolve_eq_gather assoc range_mem hr, gather, map_map]
  rfl

/-- A row is cut at its colons, and rows without colons that follow it behind colons are further
pieces. -/
theorem resolve_extend_ranges (hr : r.From .range) {rows : List Row}
    (hrows : ∀ row ∈ rows, row.Above .range) :
    (r.extend (rows.map fun row => (.colon, row))).resolve assoc =
      ranges ((r.cut .range).1.resolve assoc)
        ((r.cut .range).2.map (fun x => x.2.resolve assoc) ++ rows.map (·.resolve assoc)) := by
  have hrest : ∀ x ∈ rows.map fun row => (Link.colon, row), x.1.level = .range ∧
      x.2.Above .range := by
    intro x hx
    obtain ⟨row, hrow, rfl⟩ := mem_map.mp hx
    exact ⟨rfl, hrows row hrow⟩
  rw [resolve_extend assoc range_mem hrest hr, gather, map_append, map_map, map_map, map_map]
  rfl

/-- Rows that are read as a range together have no looser operators. -/
theorem from_of_resolve_extend (htight : r.first.tree.level = .operand) {rest : List (Link × Row)}
    {last : Tree} {step : Option Tree}
    (h : (r.extend rest).resolve assoc = .range first step last) :
    r.From .range ∧ ∀ x ∈ rest, x.2.From .range := by
  have hwhole : (r.extend rest).first.tree.level = .operand := by rwa [first_extend]
  have hrange : .range ≤ ((r.extend rest).resolve assoc).level := by
    rw [h]
    exact Nat.le_refl _
  exact ((le_level_resolve_iff assoc (by decide) hwhole).mp hrange).of_extend

/-- What a row is read as stays one operand before a colon exactly if its colons are even in number
and nothing in it is looser. -/
theorem isHead_resolve_iff (htight : r.first.tree.level = .operand) : (r.resolve assoc).isHead ↔
      r.From .range ∧ (r.cut .range).2.length % 2 = 0 := by
  have hfrom : .range ≤ (r.resolve assoc).level ↔ r.From .range :=
    le_level_resolve_iff assoc (by decide) htight
  by_cases hr : r.From .range
  · have hfirst : .range < ((r.cut .range).1.resolve assoc).level := by
      have habove : (r.cut .range).1.Above .range := above_cut hr (.inl rfl)
      refine (lt_level_resolve_iff assoc (by decide) ?_).mpr habove
      rw [first_cut]
      exact htight
    rw [resolve_eq_ranges assoc hr, isHead_ranges_iff hfirst, length_map]
    exact ⟨fun h => ⟨hr, h⟩, fun h => h.2⟩
  · refine ⟨fun h => absurd (hfrom.mp (Tree.range_le_of_isHead h)) hr, fun h => absurd h.1 hr⟩

/-- A row, a colon and a further row without colons are the two operands of a range exactly if the
first one stays one operand before a colon. -/
theorem resolve_range_iff {l : Row} (htight : r.first.tree.level = .operand) (hl : l.Above .range) :
    (r.extend [(.colon, l)]).resolve assoc =
        .range (r.resolve assoc) none (l.resolve assoc) ↔
      (r.resolve assoc).isHead := by
  have hlast : ∀ row ∈ [l], row.Above .range := by simpa using hl
  rw [isHead_resolve_iff assoc htight]
  constructor
  · intro h
    obtain ⟨hr, -⟩ := from_of_resolve_extend assoc htight h
    have hranges := resolve_extend_ranges assoc hr hlast
    refine ⟨hr, ?_⟩
    have heven := even_of_ranges_eq (hranges.symm.trans h)
    rwa [length_map] at heven
  · rintro ⟨hr, heven⟩
    have hranges := resolve_extend_ranges assoc hr hlast
    refine hranges.trans ?_
    rw [map_singleton, ranges_concat _ (by rwa [length_map]), ← resolve_eq_ranges assoc hr]

/-- Three rows with colons between them are the operands of a range exactly if the first one stays
one operand before a colon and the second one holds no colon, where the last one is known to hold
none. -/
theorem resolve_steppedRange_iff {s l : Row} (htight : r.first.tree.level = .operand)
    (htight' : s.first.tree.level = .operand) (hl : l.Above .range) :
    (r.extend [(.colon, s), (.colon, l)]).resolve assoc =
        .range (r.resolve assoc) (some (s.resolve assoc)) (l.resolve assoc) ↔
      (r.resolve assoc).isHead ∧ .range < (s.resolve assoc).level := by
  rw [isHead_resolve_iff assoc htight, lt_level_resolve_iff assoc (by decide) htight']
  constructor
  · intro h
    obtain ⟨hr, hrest⟩ := from_of_resolve_extend assoc htight h
    have hs : s.From .range := hrest (.colon, s) (by simp)
    have hjoin : (r.join .colon s).From .range := by
      change (r.extend [(.colon, s)]).From .range
      refine from_extend hr fun x hx => ?_
      obtain rfl := mem_singleton.mp hx
      exact ⟨Nat.le_refl _, hs⟩
    have hsame : r.extend [(.colon, s), (.colon, l)] =
        (r.join .colon s).extend ([l].map fun row => (.colon, row)) := rfl
    have hlast : ∀ row ∈ [l], row.Above .range := by simpa using hl
    have hcut : (r.join .colon s).cut .range = ((r.cut .range).1,
        (r.cut .range).2 ++ (.colon, (s.cut .range).1) :: (s.cut .range).2) := cut_join r s rfl
    -- of all pieces of the first two rows, the last one has to be the step
    rw [hsame, resolve_extend_ranges assoc hjoin hlast, hcut] at h
    obtain ⟨init, hinit, heven⟩ := exists_of_ranges_eq h
    rw [map_append, map_cons] at hinit
    by_cases hnil : (s.cut .range).2 = []
    · have hlength := congrArg length hinit
      simp only [hnil, length_append, length_map, length_cons, length_nil, map_nil] at hlength
      exact ⟨⟨hr, by omega⟩, above_of_cut_eq_nil hs hnil⟩
    · exfalso
      obtain ⟨before, last, hpieces⟩ : ∃ before last, (s.cut .range).2 = before ++ [last] :=
        ⟨_, _, (dropLast_concat_getLast hnil).symm⟩
      have hstep : last.2.resolve assoc = s.resolve assoc := by
        have hends := congrArg getLast? hinit
        rw [hpieces, map_append, map_singleton, ← cons_append, ← append_assoc,
          getLast?_concat, getLast?_concat] at hends
        exact Option.some.inj hends
      have hpiece := resolve_eq_ranges assoc hs
      rw [hpieces, map_append, map_singleton] at hpiece
      have hlt := sizeOf_lt_ranges ((s.cut .range).1.resolve assoc)
        (before.map fun x => x.2.resolve assoc) (last.2.resolve assoc)
      rw [← hpiece, hstep] at hlt
      exact Nat.lt_irrefl _ hlt
  · rintro ⟨⟨hr, heven⟩, hs⟩
    have hrows : ∀ row ∈ [s, l], row.Above .range := by simpa using ⟨hs, hl⟩
    have hranges := resolve_extend_ranges assoc hr hrows
    refine hranges.trans ?_
    rw [map_cons, map_singleton, ranges_concat_concat _ (by rwa [length_map]),
      ← resolve_eq_ranges assoc hr]

end Row

end Offside.Julia
