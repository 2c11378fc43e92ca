import Offside.Target.Code

/-!
# Trees of the emitted language

What a text of the emitted language stands for, by the grammar of Julia.  Outside brackets such a
text is a row of operands with operators between them, where each operand may have signs before it.
The operators of a row are put together level by level, from the loosest to the tightest:

* `||` and `&&`, whose operands form one node;
* the comparisons, which form one node too, or are read from the left;
* the colon of ranges, which joins two operands or three;
* `.+`, `.-`, `+`, `-` and then `.*`, `./`, `.÷`, `.%`, `*`, which are read from the left;
* the signs `!`, `-`, `+` before an operand;
* `.^`, which is read from the right, binds tighter than a sign on its left and takes a sign on its
  right.

A row is resolved by `Row.resolve`.  `Row.resolve_extend` says that rows joined by operators of one
level are resolved one by one as long as no operator inside them is too loose, and
`Row.lt_level_resolve_iff` that the outermost operator of what is read is the loosest one of the
row.
-/

namespace Offside.Julia

open Target List

/-- The operators before an operand. -/
inductive Unary
  | not
  | sign (op : SumOp)
deriving DecidableEq, Repr, Inhabited

/-- What stands between two operands: an operator, or the colon of a range. -/
inductive Link
  | operator (op : Operator)
  | colon
deriving DecidableEq, Repr, Inhabited

/-- How tightly an expression holds together, the loosest first. -/
inductive Level
  | or | and | comparison | range | sum | product | unary | power | operand
deriving DecidableEq, Repr, Inhabited

variable {a b : Level}

namespace Level

/-- The place of a level among all levels. -/
def rank : Level → Nat
  | or => 0
  | and => 1
  | comparison => 2
  | range => 3
  | sum => 4
  | product => 5
  | unary => 6
  | power => 7
  | operand => 8

instance : LE Level := ⟨fun a b => a.rank ≤ b.rank⟩

instance : LT Level := ⟨fun a b => a.rank < b.rank⟩

instance (a b : Level) : Decidable (a ≤ b) := inferInstanceAs (Decidable (a.rank ≤ b.rank))

instance (a b : Level) : Decidable (a < b) := inferInstanceAs (Decidable (a.rank < b.rank))

theorem le_def : a ≤ b ↔ a.rank ≤ b.rank := Iff.rfl

theorem lt_def : a < b ↔ a.rank < b.rank := Iff.rfl

/-- Two levels of the same rank are the same. -/
theorem rank_injective (h : a.rank = b.rank) : a = b := by
  cases a <;> cases b <;> first | rfl | cases h

end Level

/-- The level of an operator between two operands. -/
def Link.level : Link → Level
  | operator .or => .or
  | operator .and => .and
  | operator (.comparison _) => .comparison
  | colon => .range
  | operator (.sum _) | operator .plus | operator .minus => .sum
  | operator (.product _) | operator .times => .product
  | operator .power => .power

mutual

/-- An expression of the emitted language, as it is read. -/
inductive Tree
  /-- A name, a literal number or another word. -/
  | leaf (text : String)
  | str (pieces : List Piece)
  | symbol (name : String)
  /-- The colon that stands for all indices. -/
  | everything
  | group (inner : Tree)
  | tuple (elements : List Tree)
  | vector (elements : List Tree)
  | call (function : Tree) (arguments : List Tree)
  /-- A call of a function on each element. -/
  | broadcast (function : Tree) (arguments : List Tree)
  | member (base : Tree) (name : String)
  | subscript (base : Tree) (indices : List Tree)
  | unary (op : Unary) (operand : Tree)
  | power (base exponent : Tree)
  | range (first : Tree) (step : Option Tree) (last : Tree)
  /-- Two operands of an operator that is read from the left. -/
  | binary (link : Link) (left right : Tree)
  /-- Operands in a row that form one node. -/
  | chain (first : Tree) (rest : List (Link × Tree))

/-- A part of a string: a character as it is written, or an expression inside the string. -/
inductive Piece
  | char (c : Char)
  | embedded (inner : Tree)

end

instance : Inhabited Tree := ⟨.leaf ""⟩

/-- The level of the outermost operator. -/
def Tree.level : Tree → Level
  | .unary _ _ => .unary
  | .power _ _ => .power
  | .range _ _ _ => .range
  | .binary link _ _ => link.level
  | .chain _ ((link, _) :: _) => link.level
  | _ => .operand

/-- Whether comparisons in a row form one node or are read from the left. -/
inductive Association
  | chained
  | leftward
deriving DecidableEq, Repr, Inhabited

/-! ## Putting the operands of one level together -/

/-- Operands read from the left. -/
def leftFold (first : Tree) (rest : List (Link × Tree)) : Tree :=
  rest.foldl (fun left operand => .binary operand.1 left operand.2) first

/-- Operands that form one node, if there is more than one. -/
def chained (first : Tree) : List (Link × Tree) → Tree
  | [] => first
  | operand :: rest => .chain first (operand :: rest)

/-- Operands with colons between them.  Three operands in a row form a range with a step. -/
def ranges (first : Tree) : List Tree → Tree
  | [] => first
  | [last] => .range first none last
  | step :: last :: rest => ranges (.range first (some step) last) rest

/-- The operands of one level, put together. -/
def gather (assoc : Association) (level : Level) (first : Tree) (rest : List (Link × Tree)) :
    Tree :=
  match level, assoc with
  | .range, _ => ranges first (rest.map Prod.snd)
  | .sum, _ | .product, _ | .comparison, .leftward => leftFold first rest
  | _, _ => chained first rest

/-- The operators before an operand, the outermost first. -/
def signed (signs : List Unary) (t : Tree) : Tree := signs.foldr .unary t

/-! ## Rows -/

/-- An operand with the signs before it. -/
structure Operand where
  signs : List Unary
  tree : Tree

/-- Operands with operators between them. -/
structure Row where
  first : Operand
  rest : List (Link × Operand)

/-- Cuts the operands from `first` on at the operators of the given level. -/
def cutFrom (level : Level) (first : Operand) : List (Link × Operand) → Row × List (Link × Row)
  | [] => (⟨first, []⟩, [])
  | (link, operand) :: rest =>
    let pieces := cutFrom level operand rest
    if link.level = level then (⟨first, []⟩, (link, pieces.1) :: pieces.2)
    else (⟨first, (link, pieces.1.first) :: pieces.1.rest⟩, pieces.2)

/-- A row in which only powers are left. -/
def powers (first : Operand) : List (Link × Operand) → Tree
  | [] => signed first.signs first.tree
  | (_, operand) :: rest => signed first.signs (.power first.tree (powers operand rest))

/-- The levels of the operators between operands, powers apart. -/
def linkLevels : List Level := [.or, .and, .comparison, .range, .sum, .product]

namespace Row

/-- The row of one operand without signs. -/
def single (t : Tree) : Row := ⟨⟨[], t⟩, []⟩

/-- A row behind a sign. -/
def signed (op : Unary) (r : Row) : Row := ⟨⟨op :: r.first.signs, r.first.tree⟩, r.rest⟩

/-- A row, an operator and a further row. -/
def join (r : Row) (link : Link) (s : Row) : Row :=
  ⟨r.first, r.rest ++ (link, s.first) :: s.rest⟩

/-- A row and further rows behind operators. -/
def extend (r : Row) (rest : List (Link × Row)) : Row :=
  rest.foldl (fun row next => row.join next.1 next.2) r

/-- A row whose last operand is changed. -/
def mapLast (f : Tree → Tree) (first : Operand) : List (Link × Operand) → Row
  | [] => ⟨⟨first.signs, f first.tree⟩, []⟩
  | (link, operand) :: rest =>
    let row := mapLast f operand rest
    ⟨first, (link, row.first) :: row.rest⟩

/-- A row behind whose last operand something is written, such as the arguments of a call. -/
def behind (r : Row) (f : Tree → Tree) : Row := mapLast f r.first r.rest

/-- All operators of the row bind more tightly than the given level. -/
def Above (level : Level) (r : Row) : Prop := ∀ x ∈ r.rest, level < x.1.level

/-- All operators of the row bind at least as tightly as the given level. -/
def From (level : Level) (r : Row) : Prop := ∀ x ∈ r.rest, level ≤ x.1.level

/-- Cuts a row at the operators of the given level. -/
def cut (level : Level) (r : Row) : Row × List (Link × Row) := cutFrom level r.first r.rest

/-- The tree of a row.  The operators of the given levels are put together, the first level
outermost. -/
def resolveAt (assoc : Association) : List Level → Row → Tree
  | [], r => powers r.first r.rest
  | level :: levels, r =>
    gather assoc level (resolveAt assoc levels (r.cut level).1)
      ((r.cut level).2.map fun x => (x.1, resolveAt assoc levels x.2))

/-- The tree of a row. -/
def resolve (assoc : Association) (r : Row) : Tree := resolveAt assoc linkLevels r

end Row

/-! ## Operands of one level -/

/-- A single operand is put together to itself. -/
@[simp] theorem gather_nil (assoc : Association) (level : Level) (first : Tree) :
    gather assoc level first [] = first := by
  cases level <;> cases assoc <;> rfl

/-- Further operands continue what is read from the left. -/
theorem leftFold_append (first : Tree) (xs ys : List (Link × Tree)) :
    leftFold first (xs ++ ys) = leftFold (leftFold first xs) ys :=
  foldl_append

theorem leftFold_concat (first : Tree) (xs : List (Link × Tree)) (x : Link × Tree) :
    leftFold first (xs ++ [x]) = .binary x.1 (leftFold first xs) x.2 :=
  leftFold_append first xs [x]

/-- Operands with colons continue a row with an even number of colons. -/
theorem ranges_append (first : Tree) (xs ys : List Tree) (h : xs.length % 2 = 0) :
    ranges first (xs ++ ys) = ranges (ranges first xs) ys := by
  induction first, xs using ranges.induct with
  | case1 first => rfl
  | case2 first last => cases h
  | case3 first step last rest ih =>
    have hrest : rest.length % 2 = 0 := by
      simp only [length_cons] at h
      omega
    exact ih hrest

variable {level : Level}

/-- The level of two or more operands of one level is that level. -/
theorem level_gather (assoc : Association) (hlevel : level ∈ linkLevels) (first : Tree)
    {rest : List (Link × Tree)} (hne : rest ≠ []) (hrest : ∀ x ∈ rest, x.1.level = level) :
    (gather assoc level first rest).level = level := by
  have hchained : (chained first rest).level = level := by
    cases rest with
    | nil => exact absurd rfl hne
    | cons x xs => exact hrest x (by simp)
  have hfold : (leftFold first rest).level = level := by
    have hlast : rest.getLast hne ∈ rest := getLast_mem hne
    rw [← dropLast_concat_getLast hne, leftFold_concat]
    exact hrest _ hlast
  have hranges : ∀ (xs : List Tree) (t : Tree), t.level = .range ∨ xs ≠ [] →
      (ranges t xs).level = .range := by
    intro xs t h
    induction t, xs using ranges.induct with
    | case1 t => exact h.resolve_right (fun hxs => hxs rfl)
    | case2 t last => rfl
    | case3 t step last xs ih => exact ih (.inl rfl)
  cases level with
  | or | and => exact hchained
  | comparison => cases assoc <;> assumption
  | range => exact hranges _ first (.inr (by simpa using hne))
  | sum | product => exact hfold
  | unary | power | operand => exact absurd hlevel (by decide)

/-! ## Cutting rows -/

namespace Row

variable {r : Row}

/-- A row without operators of a level stays whole. -/
theorem cut_eq_self (h : ∀ x ∈ r.rest, x.1.level ≠ level) : r.cut level = (r, []) := by
  obtain ⟨first, rest⟩ := r
  change cutFrom level first rest = (⟨first, rest⟩, [])
  induction rest generalizing first with
  | nil => rfl
  | cons x rest ih =>
    obtain ⟨link, operand⟩ := x
    have hlink : link.level ≠ level := h (link, operand) (by simp)
    have hrest := ih operand (fun x hx => h x (by simp_all))
    rw [cutFrom, hrest]
    simp [hlink]

/-- A row is cut at the operator that joins it from two rows. -/
theorem cut_join (r s : Row) {link : Link} (h : link.level = level) : (r.join link s).cut level =
      ((r.cut level).1, (r.cut level).2 ++ (link, (s.cut level).1) :: (s.cut level).2) := by
  obtain ⟨first, rest⟩ := r
  change cutFrom level first (rest ++ (link, s.first) :: s.rest) =
    ((cutFrom level first rest).1, (cutFrom level first rest).2 ++
      (link, (cutFrom level s.first s.rest).1) :: (cutFrom level s.first s.rest).2)
  induction rest generalizing first with
  | nil => simp [cutFrom, h]
  | cons x rest ih =>
    obtain ⟨link', operand⟩ := x
    have hrest := ih operand
    simp only [cons_append, cutFrom, hrest]
    split <;> rfl

/-- A row is cut at all operators that join it from several rows. -/
theorem cut_extend (r : Row) (rest : List (Link × Row)) (h : ∀ x ∈ rest, x.1.level = level) :
    (r.extend rest).cut level = ((r.cut level).1, (r.cut level).2 ++
      rest.flatMap fun x => (x.1, (x.2.cut level).1) :: (x.2.cut level).2) := by
  induction rest generalizing r with
  | nil => simp [extend]
  | cons x rest ih =>
    have hx : x.1.level = level := h x (by simp)
    have hrest := ih (r.join x.1 x.2) (fun y hy => h y (by simp [hy]))
    change ((r.join x.1 x.2).extend rest).cut level = _
    rw [hrest, cut_join r x.2 hx]
    simp

/-- The pieces of a row start behind operators of the level at which it is cut. -/
theorem level_of_mem_cut (r : Row) : ∀ x ∈ (r.cut level).2, x.1.level = level := by
  obtain ⟨first, rest⟩ := r
  change ∀ x ∈ (cutFrom level first rest).2, x.1.level = level
  induction rest generalizing first with
  | nil => simp [cutFrom]
  | cons x rest ih =>
    obtain ⟨link, operand⟩ := x
    intro y hy
    rw [cutFrom] at hy
    by_cases hlink : link.level = level
    · rw [if_pos hlink] at hy
      rcases mem_cons.mp hy with rfl | hy
      · exact hlink
      · exact ih operand y hy
    · rw [if_neg hlink] at hy
      exact ih operand y hy

/-- A row with an operator of the level at which it is cut falls into pieces. -/
theorem cut_ne_nil {x : Link × Operand} (hx : x ∈ r.rest) (h : x.1.level = level) :
    (r.cut level).2 ≠ [] := by
  obtain ⟨first, rest⟩ := r
  change (cutFrom level first rest).2 ≠ []
  induction rest generalizing first with
  | nil => cases hx
  | cons y rest ih =>
    obtain ⟨link, operand⟩ := y
    rw [cutFrom]
    by_cases hlink : link.level = level
    · simp [hlink]
    · rw [if_neg hlink]
      rcases mem_cons.mp hx with rfl | hx
      · exact absurd h hlink
      · exact ih operand hx

/-- The operators inside the pieces of a row are operators of the row, and none of them is of the
level at which it is cut. -/
theorem link_of_mem_cut (r : Row) {piece : Row}
    (hpiece : piece = (r.cut level).1 ∨ ∃ x ∈ (r.cut level).2, x.2 = piece) :
    ∀ y ∈ piece.rest, y.1.level ≠ level ∧ ∃ z ∈ r.rest, z.1 = y.1 := by
  obtain ⟨first, rest⟩ := r
  change piece = (cutFrom level first rest).1 ∨ ∃ x ∈ (cutFrom level first rest).2, x.2 =
    piece at hpiece
  change ∀ y ∈ piece.rest, y.1.level ≠ level ∧ ∃ z ∈ rest, z.1 = y.1
  induction rest generalizing first piece with
  | nil =>
    rcases hpiece with rfl | ⟨x, hx, -⟩
    · simp [cutFrom]
    · cases hx
  | cons x rest ih =>
    obtain ⟨link, operand⟩ := x
    have lift : ∀ p : Row, (∀ y ∈ p.rest, y.1.level ≠ level ∧ ∃ z ∈ rest, z.1 = y.1) →
        ∀ y ∈ p.rest, y.1.level ≠ level ∧ ∃ z ∈ (link, operand) :: rest, z.1 = y.1 := by
      intro p hp y hy
      obtain ⟨hne, z, hz, hzy⟩ := hp y hy
      exact ⟨hne, z, by simp [hz], hzy⟩
    rw [cutFrom] at hpiece
    by_cases hlink : link.level = level
    · simp only [if_pos hlink] at hpiece
      rcases hpiece with rfl | ⟨x, hx, rfl⟩
      · simp
      · rcases mem_cons.mp hx with rfl | hx
        · exact lift _ (ih operand (.inl rfl))
        · exact lift _ (ih operand (.inr ⟨x, hx, rfl⟩))
    · simp only [if_neg hlink] at hpiece
      rcases hpiece with rfl | ⟨x, hx, rfl⟩
      · intro y hy
        rcases mem_cons.mp hy with rfl | hy
        · exact ⟨hlink, (link, operand), by simp, rfl⟩
        · exact lift _ (ih operand (.inl rfl)) y hy
      · exact lift _ (ih operand (.inr ⟨x, hx, rfl⟩))

/-- Operators that are not looser than a level and not of it are tighter. -/
theorem lt_of_le_of_ne (h : a ≤ b) (hne : b ≠ a) : a < b := by
  rw [Level.le_def] at h
  rw [Level.lt_def]
  have : a.rank ≠ b.rank := fun heq => hne (Level.rank_injective heq).symm
  omega

/-- Cutting a row at its loosest operators leaves tighter ones in all pieces. -/
theorem above_cut (h : r.From level) {piece : Row}
    (hpiece : piece = (r.cut level).1 ∨ ∃ x ∈ (r.cut level).2, x.2 = piece) :
    piece.Above level := by
  intro y hy
  obtain ⟨hne, z, hz, hzy⟩ := link_of_mem_cut r hpiece y hy
  have hle : level ≤ y.1.level := hzy ▸ h z hz
  exact lt_of_le_of_ne hle hne

/-- A row with tighter operators only is cut into one piece. -/
theorem cut_of_above (h : r.Above level) : r.cut level = (r, []) := by
  refine cut_eq_self fun x hx heq => ?_
  have hlt := h x hx
  rw [Level.lt_def, heq] at hlt
  omega

theorem Above.from {level : Level} {r : Row} (h : r.Above level) : r.From level := by
  intro x hx
  have hlt := h x hx
  rw [Level.lt_def] at hlt
  rw [Level.le_def]
  omega

/-- Operators from a level on are tighter than all looser levels. -/
theorem From.above {level' : Level} (h : r.From level') (hlt : level < level') : r.Above level := by
  intro x hx
  exact Nat.lt_of_lt_of_le hlt (h x hx)

/-! ## Resolving rows -/

variable (assoc : Association)

/-- Levels without operators in a row are passed over. -/
theorem resolveAt_append (looser levels : List Level) (h : ∀ x ∈ r.rest, x.1.level ∉ looser) :
    r.resolveAt assoc (looser ++ levels) = r.resolveAt assoc levels := by
  induction looser with
  | nil => rfl
  | cons level looser ih =>
    have hcut : r.cut level = (r, []) := cut_eq_self fun x hx heq => h x hx (by simp [heq])
    have hrest := ih fun x hx hmem => h x hx (by simp [hmem])
    rw [cons_append, resolveAt, hcut]
    simpa using hrest

/-- The levels around a level: looser ones before it and tighter ones behind it. -/
theorem exists_linkLevels_eq (h : level ∈ linkLevels) :
    ∃ looser tighter, linkLevels = looser ++ level :: tighter ∧ ∀ l ∈ looser, l < level := by
  cases level with
  | or => exact ⟨[], _, rfl, by decide⟩
  | and => exact ⟨[.or], _, rfl, by decide⟩
  | comparison => exact ⟨[.or, .and], _, rfl, by decide⟩
  | range => exact ⟨[.or, .and, .comparison], _, rfl, by decide⟩
  | sum => exact ⟨[.or, .and, .comparison, .range], _, rfl, by decide⟩
  | product => exact ⟨[.or, .and, .comparison, .range, .sum], _, rfl, by decide⟩
  | unary | power | operand => exact absurd h (by decide)

/-- A row without operators looser than a level is cut at that level, and its pieces are put
together. -/
theorem resolve_eq_gather (hlevel : level ∈ linkLevels) (h : r.From level) :
    r.resolve assoc = gather assoc level ((r.cut level).1.resolve assoc)
      ((r.cut level).2.map fun x => (x.1, x.2.resolve assoc)) := by
  obtain ⟨looser, tighter, heq, hlooser⟩ := exists_linkLevels_eq hlevel
  have hskip : ∀ s : Row, s.From level → ∀ x ∈ s.rest, x.1.level ∉ looser := by
    intro s hs x hx hmem
    have h1 := hs x hx
    have h2 := hlooser _ hmem
    rw [Level.le_def] at h1
    rw [Level.lt_def] at h2
    omega
  -- a piece has no operators of the level itself either, so its reading starts behind that level
  have hpiece : ∀ s : Row, s.Above level → s.resolve assoc = s.resolveAt assoc tighter := by
    intro s hs
    have hcut : s.cut level = (s, []) := cut_of_above hs
    rw [resolve, heq, resolveAt_append assoc looser _ (hskip s hs.from), resolveAt, hcut]
    simp
  have hfirst := hpiece _ (above_cut h (.inl rfl))
  have hrest : ((r.cut level).2.map fun x => (x.1, x.2.resolve assoc)) =
      (r.cut level).2.map fun x => (x.1, x.2.resolveAt assoc tighter) := by
    refine map_congr_left fun x hx => ?_
    rw [hpiece _ (above_cut h (.inr ⟨x, hx, rfl⟩))]
  rw [hfirst, hrest, resolve, heq, resolveAt_append assoc looser _ (hskip r h), resolveAt]

variable {rest : List (Link × Row)}

/-- The operators of a row joined from several rows. -/
theorem mem_rest_extend {x : Link × Operand} : x ∈ (r.extend rest).rest ↔
      x ∈ r.rest ∨ ∃ y ∈ rest, x = (y.1, y.2.first) ∨ x ∈ y.2.rest := by
  induction rest generalizing r with
  | nil => simp [extend]
  | cons y rest ih =>
    change x ∈ ((r.join y.1 y.2).extend rest).rest ↔ _
    rw [ih]
    simp [join, or_assoc]

theorem first_extend (r : Row) (rest : List (Link × Row)) : (r.extend rest).first = r.first := by
  induction rest generalizing r with
  | nil => rfl
  | cons x rest ih => exact ih (r.join x.1 x.2)

theorem from_extend (hr : r.From level) (hrest : ∀ x ∈ rest, level ≤ x.1.level ∧ x.2.From level) :
    (r.extend rest).From level := by
  intro x hx
  rcases mem_rest_extend.mp hx with hx | ⟨y, hy, rfl | hx⟩
  · exact hr x hx
  · exact (hrest y hy).1
  · exact (hrest y hy).2 x hx

/-- What a row is joined from has the operators of the row only. -/
theorem From.of_extend (h : (r.extend rest).From level) :
    r.From level ∧ ∀ x ∈ rest, x.2.From level :=
  ⟨fun x hx => h x (mem_rest_extend.mpr (.inl hx)),
    fun y hy x hx => h x (mem_rest_extend.mpr (.inr ⟨y, hy, .inr hx⟩))⟩

section Extended

variable (hlevel : level ∈ linkLevels) (hrest : ∀ x ∈ rest, x.1.level = level ∧ x.2.Above level)
include hlevel hrest

/-- Rows joined by operators of one level are resolved one by one if the operators inside them are
tighter, except that the first row may hold operators of the same level. -/
theorem resolve_extend (hr : r.From level) : (r.extend rest).resolve assoc =
      gather assoc level ((r.cut level).1.resolve assoc)
        (((r.cut level).2.map fun x => (x.1, x.2.resolve assoc)) ++ rest.map fun x =>
          (x.1, x.2.resolve assoc)) := by
  have hfrom : (r.extend rest).From level := by
    refine from_extend hr fun x hx => ⟨?_, (hrest x hx).2.from⟩
    exact Nat.le_of_eq (congrArg Level.rank (hrest x hx).1.symm)
  have hcut : (r.extend rest).cut level = ((r.cut level).1, (r.cut level).2 ++ rest) := by
    have hwhole : (rest.map fun x => (x.1, (x.2.cut level).1) :: (x.2.cut level).2) =
        rest.map fun x => [x] := by
      refine map_congr_left fun x hx => ?_
      rw [cut_of_above (hrest x hx).2]
    rw [cut_extend r rest fun x hx => (hrest x hx).1, flatMap_def, hwhole, ← flatMap_def]
    simp
  rw [resolve_eq_gather assoc hlevel hfrom, hcut]
  simp

/-- Rows joined by operators that are read from the left. -/
theorem resolve_extend_leftFold (hleft : gather assoc level = leftFold) (hr : r.From level) :
    (r.extend rest).resolve assoc =
      leftFold (r.resolve assoc) (rest.map fun x => (x.1, x.2.resolve assoc)) := by
  have hwhole := resolve_extend assoc hlevel hrest hr
  have hfirst := resolve_eq_gather assoc hlevel hr
  rw [hleft] at hwhole hfirst
  rw [hwhole, leftFold_append, hfirst]

/-- Rows joined by operators of one level, where the first row holds tighter operators only. -/
theorem resolve_extend_of_above (hr : r.Above level) :
    (r.extend rest).resolve assoc = gather assoc level (r.resolve assoc)
      (rest.map fun x => (x.1, x.2.resolve assoc)) := by
  have hwhole := resolve_extend assoc hlevel hrest hr.from
  rw [cut_of_above hr] at hwhole
  simpa using hwhole

end Extended

/-- A row that is not cut at a level has tighter operators only. -/
theorem above_of_cut_eq_nil (hr : r.From level) (h : (r.cut level).2 = []) : r.Above level := by
  intro x hx
  exact lt_of_le_of_ne (hr x hx) fun heq => cut_ne_nil hx heq h

/-- Two rows joined by an operator that is read from the left are its two operands only if the
operators inside the second row are tighter: otherwise the last piece of the second row is all that
the last operator gets on its right. -/
theorem above_of_resolve_join (hlevel : level ∈ linkLevels) (hleft : gather assoc level = leftFold)
    {s : Row} {link : Link} (hlink : link.level = level) (hr : r.From level) (hs : s.From level)
    {t : Tree} (h : (r.join link s).resolve assoc = .binary link t (s.resolve assoc)) :
    r.resolve assoc = t ∧ s.Above level := by
  have hfrom : (r.join link s).From level := by
    change (r.extend [(link, s)]).From level
    refine from_extend hr fun x hx => ?_
    obtain rfl := mem_singleton.mp hx
    exact ⟨Nat.le_of_eq (congrArg Level.rank hlink.symm), hs⟩
  have hwhole := resolve_eq_gather assoc hlevel hfrom
  have hfirst := resolve_eq_gather assoc hlevel hr
  have hsecond := resolve_eq_gather assoc hlevel hs
  rw [hleft] at hwhole hfirst hsecond
  rw [h, cut_join r s hlink, map_append, leftFold_append, ← hfirst, map_cons] at hwhole
  by_cases hnil : (s.cut level).2 = []
  · rw [hnil] at hwhole
    obtain ⟨-, hr', -⟩ := Tree.binary.inj hwhole
    exact ⟨hr'.symm, above_of_cut_eq_nil hs hnil⟩
  · exfalso
    obtain ⟨before, last, hlast⟩ : ∃ before last, (s.cut level).2 = before ++ [last] :=
      ⟨_, _, (dropLast_concat_getLast hnil).symm⟩
    rw [hlast, map_append, map_cons, map_nil] at hwhole hsecond
    rw [leftFold_concat] at hsecond
    rw [← cons_append, leftFold_concat] at hwhole
    obtain ⟨-, -, hright⟩ := Tree.binary.inj hwhole
    have hsize := congrArg sizeOf hsecond
    rw [hright, Tree.binary.sizeOf_spec] at hsize
    omega

/-- Rows joined by operators that are read from the left are resolved one by one only if the
operators inside the further rows are tighter. -/
theorem above_of_resolve_extend (hlevel : level ∈ linkLevels)
    (hleft : gather assoc level = leftFold) (hr : r.From level)
    (hrest : ∀ x ∈ rest, x.1.level = level ∧ x.2.From level) (h : (r.extend rest).resolve assoc =
      leftFold (r.resolve assoc) (rest.map fun x => (x.1, x.2.resolve assoc))) :
    ∀ x ∈ rest, x.2.Above level := by
  -- the rows are taken off one by one, the last one first
  obtain ⟨n, hn⟩ : ∃ n, rest.length = n := ⟨_, rfl⟩
  induction n generalizing rest with
  | zero =>
    rw [length_eq_zero_iff.mp hn]
    simp
  | succ n ih =>
    have hne : rest ≠ [] := by
      rintro rfl
      simp at hn
    obtain ⟨init, last, rfl⟩ : ∃ init last, rest = init ++ [last] :=
      ⟨_, _, (dropLast_concat_getLast hne).symm⟩
    have hlast := hrest last (by simp)
    have hinit : ∀ x ∈ init, x.1.level = level ∧ x.2.From level :=
      fun x hx => hrest x (by simp [hx])
    have hfrom : (r.extend init).From level :=
      from_extend hr fun x hx =>
        ⟨Nat.le_of_eq (congrArg Level.rank (hinit x hx).1.symm), (hinit x hx).2⟩
    have hjoin : r.extend (init ++ [last]) = (r.extend init).join last.1 last.2 := by
      simp [extend]
    rw [hjoin, map_append, map_cons, map_nil, leftFold_concat] at h
    obtain ⟨hleftTree, habove⟩ :=
      above_of_resolve_join assoc hlevel hleft hlast.1 hfrom hlast.2 h
    have hall := ih hinit hleftTree (by simpa using hn)
    intro x hx
    rcases mem_append.mp hx with hx | hx
    · exact hall x hx
    · rw [mem_singleton.mp hx]
      exact habove

/-- Every operator is of one of the levels at which rows are cut, or a power. -/
theorem link_level_mem (link : Link) : link.level ∈ linkLevels ∨ link.level = .power := by
  cases link with
  | colon => decide
  | operator op => cases op <;> simp [Link.level, linkLevels]

/-- A row with powers only is read as an operand, a power or what stands behind a sign. -/
theorem unary_le_level_powers {first : Operand} (h : first.tree.level = .operand)
    (rest : List (Link × Operand)) : Level.unary ≤ (powers first rest).level := by
  have hsigned : ∀ (signs : List Unary) (t : Tree), Level.unary ≤ t.level →
      Level.unary ≤ (Julia.signed signs t).level := by
    intro signs t ht
    cases signs with
    | nil => exact ht
    | cons op signs => exact Nat.le_refl _
  cases rest with
  | nil => exact hsigned _ _ (by rw [h]; decide)
  | cons x rest => exact hsigned _ _ (by decide : Level.unary ≤ Level.power)

/-- What is read at some levels is tighter than a given rank exactly if all operators of the row
are. -/
theorem lt_rank_resolveAt_iff {n : Nat} (hn : n < Level.unary.rank) {levels : List Level}
    (hsorted : levels.Pairwise (· < ·)) (hlinks : ∀ l ∈ levels, l ∈ linkLevels)
    (htight : r.first.tree.level = .operand)
    (hmem : ∀ x ∈ r.rest, x.1.level ∈ levels ∨ x.1.level = .power) :
    n < (r.resolveAt assoc levels).level.rank ↔ ∀ x ∈ r.rest, n < x.1.level.rank := by
  induction levels with
  | nil =>
    have hle := unary_le_level_powers htight r.rest
    rw [Level.le_def] at hle
    refine iff_of_true (Nat.lt_of_lt_of_le hn hle) fun x hx => ?_
    have hpower : x.1.level = .power := (hmem x hx).resolve_left (by simp)
    rw [hpower]
    exact Nat.lt_trans hn (by decide)
  | cons level levels ih =>
    have htail := pairwise_cons.mp hsorted
    by_cases hsome : ∃ x ∈ r.rest, x.1.level = level
    · obtain ⟨x, hx, hxlevel⟩ := hsome
      have hlevel : (r.resolveAt assoc (level :: levels)).level = level := by
        refine level_gather assoc (hlinks level (by simp)) _ ?_ ?_
        · simpa using cut_ne_nil hx hxlevel
        · intro y hy
          obtain ⟨z, hz, rfl⟩ := mem_map.mp hy
          exact level_of_mem_cut r z hz
      rw [hlevel]
      constructor
      · intro hlt y hy
        have hle : level.rank ≤ y.1.level.rank := by
          rcases hmem y hy with hy | hy
          · rcases mem_cons.mp hy with hy | hy
            · exact Nat.le_of_eq (congrArg Level.rank hy.symm)
            · exact Nat.le_of_lt (htail.1 _ hy)
          · have hlink := hlinks level (by simp)
            rw [hy]
            revert hlink
            cases level <;> decide
        omega
      · intro hall
        exact hxlevel ▸ hall x hx
    · have hne : ∀ x ∈ r.rest, x.1.level ≠ level := fun x hx heq => hsome ⟨x, hx, heq⟩
      have hskip :=
        resolveAt_append assoc (r := r) [level] levels (fun x hx => by simpa using hne x hx)
      rw [show level :: levels = [level] ++ levels from rfl, hskip]
      refine ih htail.2 (fun l hl => hlinks l (by simp [hl])) fun x hx => ?_
      rcases hmem x hx with hx' | hx'
      · exact .inl ((mem_cons.mp hx').resolve_left (hne x hx))
      · exact .inr hx'

/-- The outermost operator of what is read is tighter than a level exactly if all operators of the
row are. -/
theorem lt_level_resolve_iff (h : level < .unary) (htight : r.first.tree.level = .operand) :
    level < (r.resolve assoc).level ↔ r.Above level :=
  lt_rank_resolveAt_iff assoc h (by decide) (fun _ hl => hl) htight fun x _ => link_level_mem x.1

/-- The outermost operator of what is read is at least as tight as a level exactly if all operators
of the row are. -/
theorem le_level_resolve_iff (h : level < .unary) (htight : r.first.tree.level = .operand) :
    level ≤ (r.resolve assoc).level ↔ r.From level := by
  simp only [Level.le_def, From]
  rw [Level.lt_def] at h
  cases hrank : level.rank with
  | zero => simp
  | succ n =>
    exact lt_rank_resolveAt_iff assoc (n := n) (by omega) (by decide) (fun _ hl => hl) htight
      fun x _ => link_level_mem x.1

/-! ## Signs and powers -/

/-- A row with powers only is read from the right. -/
theorem resolve_eq_powers (h : r.From .power) :
    r.resolve assoc = powers r.first r.rest := by
  have hskip : ∀ x ∈ r.rest, x.1.level ∉ linkLevels := by
    intro x hx hmem
    have hle := h x hx
    revert hmem hle
    cases x.1.level <;> decide
  have hall := resolveAt_append assoc linkLevels [] hskip
  rw [append_nil] at hall
  rw [resolve, hall, resolveAt]

/-- A sign before a row with powers only is the sign of all of it. -/
theorem resolve_signed (op : Unary) (h : r.From .power) :
    (r.signed op).resolve assoc = .unary op (r.resolve assoc) := by
  rw [resolve_eq_powers assoc h, resolve_eq_powers assoc (r := r.signed op) h]
  obtain ⟨first, rest⟩ := r
  cases rest <;> rfl

/-- An operand without signs, a power, and a row with powers only. -/
theorem resolve_power (base : Tree) (h : r.From .power) :
    ((single base).join (.operator .power) r).resolve assoc = .power base (r.resolve assoc) := by
  have hfrom : ((single base).join (.operator .power) r).From .power := by
    intro x hx
    rcases mem_cons.mp hx with rfl | hx
    · exact Nat.le_refl _
    · exact h x hx
  rw [resolve_eq_powers assoc hfrom, resolve_eq_powers assoc h]
  rfl

/-- A lone operand is read as itself. -/
@[simp] theorem resolve_single (t : Tree) :
    (single t).resolve assoc = t :=
  resolve_eq_powers assoc fun x hx => absurd hx (by simp [single])

end Row

end Offside.Julia
