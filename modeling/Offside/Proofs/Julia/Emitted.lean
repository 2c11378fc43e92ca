import Offside.Proofs.Julia.Number
import Offside.Proofs.Julia.Passing
import Offside.Proofs.Traversal

/-!
# Reading emitted expressions

The text of an emitted expression is one row of operands: brackets close it off, and everything else
that the printer writes side by side is read side by side.  `Code.row` gives that row, and
`read_text` says that the text of every emitted expression is read as its row resolved, whether or
not the brackets in it are enough to keep the operands together.
-/

namespace Offside.Target

open Julia

attribute [simp] Code.text Code.texts Code.restText CodePart.texts

mutual

/-- Whether all names in an expression are names of the emitted language, and no sign stands
directly before a sign. -/
def Code.isLexical : Code → Bool
  | .name text | .symbol text => isName text
  | .boolean _ | .nothing | .integer _ | .float _ | .lastIndex | .everything => true
  | .str parts => CodePart.areLexical parts
  | .group inner => inner.isLexical
  | .tuple elements | .vector elements => Code.areLexical elements
  | .spread _ => false
  | .chain first rest => first.isLexical && Code.restIsLexical rest
  | .not operand => operand.isLexical
  | .sign _ operand => operand.isLexical && !operand.startsSigned
  | .range first none last => first.isLexical && last.isLexical
  | .range first (some step) last => first.isLexical && step.isLexical && last.isLexical
  | .call function arguments => function.isLexical && Code.areLexical arguments
  | .broadcast function arguments | .statistic function arguments =>
    isName function && Code.areLexical arguments
  | .staticCall owner method arguments =>
    isName owner && isName method && Code.areLexical arguments
  | .methodCall method arguments => isName method && Code.areLexical arguments
  | .member base name => base.isLexical && isName name
  | .subscript base indices => base.isLexical && Code.areLexical indices

/-- Whether all names in some expressions are names of the emitted language. -/
def Code.areLexical : List Code → Bool
  | [] => true
  | code :: rest => code.isLexical && Code.areLexical rest

/-- Whether all names in the further operands of a chain are names of the emitted language. -/
def Code.restIsLexical : List (Operator × Code) → Bool
  | [] => true
  | (_, code) :: rest => code.isLexical && Code.restIsLexical rest

/-- Whether all names in the parts of a string are names of the emitted language. -/
def CodePart.areLexical : List CodePart → Bool
  | [] => true
  | .literal _ :: rest => CodePart.areLexical rest
  | .embedded code :: rest => code.isLexical && CodePart.areLexical rest

end

/-- The tag of a name in the choice of a method. -/
def tagTree (name : String) : Tree := .call (.leaf "Val") [.symbol name]

section Rows

variable (assoc : Association)

mutual

/-- The operands and operators that stand outside brackets in the text of an expression. -/
@[simp] def Code.row : Code → Row
  | .name text => .single (.leaf text)
  | .boolean value => .single (.leaf (if value then "true" else "false"))
  | .nothing => .single (.leaf "nothing")
  | .integer value =>
    if value < 0 then (Row.single (.leaf (toString value.natAbs))).signed (.sign .sub)
    else .single (.leaf (toString value))
  | .float value => .single (.leaf (value.textWith "Inf"))
  | .str parts => .single (.str (CodePart.pieces parts))
  | .symbol name => .single (.symbol name)
  | .lastIndex => .single (.leaf "end")
  | .everything => .single .everything
  | .group inner => .single (.group (inner.row.resolve assoc))
  | .tuple elements => .single (bracketed (Code.trees elements))
  | .vector elements => .single (.vector (Code.trees elements))
  | .spread sequence => sequence.row
  | .chain first rest => first.row.extend (Code.links rest)
  | .not operand => operand.row.signed .not
  | .sign op operand => operand.row.signed (.sign op)
  | .range first none last => first.row.extend [(.colon, last.row)]
  | .range first (some step) last =>
    first.row.extend [(.colon, step.row), (.colon, last.row)]
  | .call function arguments => function.row.behind (.call · (Code.trees arguments))
  | .broadcast function arguments => .single (.broadcast (.leaf function) (Code.trees arguments))
  | .statistic function arguments => .single (.call (.leaf function) (Code.trees arguments))
  | .staticCall owner method arguments =>
    .single (.call (.leaf "__static__") (tagTree owner :: tagTree method :: Code.trees arguments))
  | .methodCall method arguments =>
    .single (.call (.leaf "__method__") (tagTree method :: Code.trees arguments))
  | .member base name => base.row.behind (.member · name)
  | .subscript base indices => base.row.behind (.subscript · (Code.trees indices))

/-- What some expressions are read as. -/
@[simp] def Code.trees : List Code → List Tree
  | [] => []
  | code :: rest => code.row.resolve assoc :: Code.trees rest

/-- The operators and rows of the further operands of a chain. -/
@[simp] def Code.links : List (Operator × Code) → List (Link × Row)
  | [] => []
  | (op, code) :: rest => (.operator op, code.row) :: Code.links rest

/-- What the parts of a string are read as. -/
@[simp] def CodePart.pieces : List CodePart → List Piece
  | [] => []
  | .literal text :: rest => (escapeText text).toList.map .char ++ CodePart.pieces rest
  | .embedded code :: rest => .embedded (code.row.resolve assoc) :: CodePart.pieces rest

end

/-- What an expression is read as. -/
def Code.tree (code : Code) : Tree := (code.row assoc).resolve assoc

theorem Code.texts_eq_map (codes : List Code) : Code.texts codes = codes.map Code.text :=
  eq_map_of_cons rfl (fun _ _ => rfl) codes

theorem Code.trees_eq_map (codes : List Code) :
    Code.trees assoc codes = codes.map (·.tree assoc) :=
  eq_map_of_cons rfl (fun _ _ => rfl) codes

theorem Code.links_eq_map (rest : List (Operator × Code)) :
    Code.links assoc rest = rest.map fun x => (.operator x.1, x.2.row assoc) :=
  eq_map_of_cons rfl (fun _ _ => rfl) rest

/-- A row with something written behind its last operand still starts with an operand without
operators. -/
theorem level_first_behind {r : Row} (h : r.first.tree.level = .operand) {f : Tree → Tree}
    (hf : ∀ t, (f t).level = .operand) : (r.behind f).first.tree.level = .operand := by
  obtain ⟨first, rest⟩ := r
  cases rest with
  | nil => exact hf _
  | cons x rest => exact h

/-- The text of an expression starts with an operand without operators, behind its signs. -/
theorem Code.level_first_row (code : Code) : (code.row assoc).first.tree.level = .operand := by
  cases code with
  | integer value =>
    rw [Code.row]
    split <;> rfl
  | tuple elements =>
    rw [Code.row]
    change (bracketed _).level = _
    cases Code.trees assoc elements with
    | nil => rfl
    | cons t ts => cases ts <;> rfl
  | spread sequence => exact Code.level_first_row sequence
  | chain first rest =>
    rw [Code.row, Row.first_extend]
    exact Code.level_first_row first
  | not operand | sign _ operand => exact Code.level_first_row operand
  | range first step last =>
    have hfirst := Code.level_first_row first
    cases step <;> (rw [Code.row, Row.first_extend]; exact hfirst)
  | call function arguments =>
    exact level_first_behind (Code.level_first_row function) fun t => rfl
  | member base _ | subscript base _ =>
    exact level_first_behind (Code.level_first_row base) fun t => rfl
  | name _ | boolean _ | nothing | float _ | str _ | symbol _ | lastIndex | everything | group _
  | vector _ | broadcast _ _ | statistic _ _ | staticCall _ _ _ | methodCall _ _ => rfl

end Rows

end Offside.Target

namespace Offside.Julia

open Target

section Reading

variable (assoc : Association)

/-! ## Texts without a sign before them -/

/-- The characters are some, and the first of them is no sign. -/
def Unsigned (cs : List Char) : Prop := ∃ c rest, cs = c :: rest ∧ c ∉ ['+', '-']

theorem Unsigned.append {cs : List Char} (h : Unsigned cs) (ds : List Char) :
    Unsigned (cs ++ ds) := by
  obtain ⟨c, rest, rfl, hc⟩ := h
  exact ⟨c, rest ++ ds, rfl, hc⟩

theorem unsigned_of_isName {text : String} (h : isName text) : Unsigned text.toList := by
  obtain ⟨c, cs, hcs, hc⟩ := exists_of_isName h
  refine ⟨c, cs, hcs, fun hmem => ?_⟩
  have hstart : ∀ d ∈ ['+', '-'], (!Text.isWordStart d) := List.all_eq_true.mp (by decide)
  exact absurd hc (by simpa using hstart c hmem)

variable {code : Code} {cs rest : List Char} {codes : List Code}

theorem unsigned_of_areDigits (h : AreDigits cs) : Unsigned cs := by
  obtain ⟨hne, hdigits⟩ := h
  cases cs with
  | nil => exact absurd rfl hne
  | cons c cs =>
    refine ⟨c, cs, rfl, fun hmem => ?_⟩
    have hsign : ∀ d ∈ ['+', '-'], (!d.isDigit) := List.all_eq_true.mp (by decide)
    exact absurd (hdigits c (by simp)) (by simpa using hsign c hmem)

theorem unsigned_of_isNumber (h : IsNumber cs) : Unsigned cs := by
  obtain ⟨whole, part, scale, hwhole, -, -, rfl⟩ := h
  exact (unsigned_of_areDigits hwhole).append (part ++ scale)

/-- The text of an expression starts with a sign only if the expression does. -/
theorem unsigned_text {code : Code} (h : code.isLexical) (hs : code.startsSigned = false) :
    Unsigned code.text.toList := by
  cases code with
  | name text => exact unsigned_of_isName h
  | boolean value => exact unsigned_of_isName (by cases value <;> decide)
  | nothing | lastIndex => exact unsigned_of_isName (by decide)
  | integer value =>
    have hnonneg : 0 ≤ value := by simpa [Code.startsSigned] using hs
    rw [Code.text, toList_toString_of_nonneg hnonneg]
    exact unsigned_of_areDigits (areDigits_toDigits _)
  | float value =>
    cases value with
    | infinite => exact unsigned_of_isName (by decide)
    | finite significand exponent =>
      exact unsigned_of_isNumber (Binary64.isNumber_textWith "Inf" significand exponent)
  | str parts | symbol name | everything | group inner | tuple elements | vector elements
  | not operand | staticCall owner method arguments | methodCall method arguments =>
    simp [Unsigned]
  | spread sequence => cases h
  | chain first rest =>
    have hfirst := unsigned_text (Bool.and_eq_true_iff.mp h).1 hs
    rw [Code.text, String.toList_append]
    exact hfirst.append _
  | sign op operand => cases hs
  | range first step last =>
    have hlexical : first.isLexical := by
      cases step <;> simp_all [Code.isLexical]
    have hfirst := unsigned_text hlexical hs
    cases step <;> simp only [Code.text, String.toList_append, List.append_assoc] <;>
      exact hfirst.append _
  | call base _ | member base _ | subscript base _ =>
    have hbase := unsigned_text (Bool.and_eq_true_iff.mp h).1 hs
    simp only [Code.text, String.toList_append, List.append_assoc]
    exact hbase.append _
  | broadcast function arguments | statistic function arguments =>
    have hfunction := unsigned_of_isName (Bool.and_eq_true_iff.mp h).1
    simp only [Code.text, String.toList_append, List.append_assoc]
    exact hfunction.append _

/-! ## Expressions -/

open State

/-- The text of an expression is passed as its row, wherever an operand is expected. -/
def IsRead (code : Code) : Prop :=
  ∀ (s : Spot) (rest : List Char), Stops rest →
    run assoc s.awaiting (code.text.toList ++ rest) = run assoc (s.behind (code.row assoc)) rest

theorem toList_commas_cons_cons (text next : String) (texts : List String) :
    (commas (text :: next :: texts)).toList = text.toList ++
      ',' :: ' ' :: (commas (next :: texts)).toList := by
  simp only [commas, String.toList_intercalate, List.map_cons]
  rw [List.intercalate_cons_cons]
  simp

/-- Expressions with commas between them are the elements of the bracket around them. -/
theorem run_elements (h : ∀ code ∈ codes, IsRead assoc code) (opener : Opener)
    (elements : List Tree) (hne : codes = [] → elements = []) (outer : List Frame)
    (hrest : Stops rest) :
    ∃ frame : Frame, frame.opener = opener ∧
      frame.elements? assoc = some (elements ++ codes.map (·.tree assoc)) ∧
      run assoc ⟨⟨opener, elements, {}⟩, outer, none⟩
          ((commas (codes.map Code.text)).toList ++ rest) =
        run assoc ⟨frame, outer, none⟩ rest := by
  induction codes generalizing elements with
  | nil =>
    obtain rfl := hne rfl
    exact ⟨⟨opener, [], {}⟩, rfl, rfl, rfl⟩
  | cons code codes ih =>
    have hcode := h code (by simp) { opener, elements, outer }
    cases codes with
    | nil =>
      refine ⟨⟨opener, elements, .put none [] (code.row assoc)⟩, rfl, ?_, ?_⟩
      · rw [elements?_put, Line.attach_none]
        rfl
      · have hone : commas ([code].map Code.text) = code.text := by simp [commas]
        rw [hone]
        exact hcode rest hrest
    | cons next codes =>
      obtain ⟨frame, hopener, helements, hrun⟩ :=
        ih (fun code hcode => h code (by simp [hcode])) (elements ++ [code.tree assoc]) (by simp)
      refine ⟨frame, hopener, by simpa using helements, ?_⟩
      have hcomma : step assoc
          ⟨⟨opener, elements, .put none [] (code.row assoc)⟩, outer, none⟩ .comma =
            some ⟨⟨opener, elements ++ [code.tree assoc], {}⟩, outer, none⟩ := by
        simp only [step, Line.row?_put, Line.attach_none, Option.bind_eq_bind, Option.bind_some]
        rfl
      simp only [List.map_cons] at hrun ⊢
      rw [toList_commas_cons_cons, List.append_assoc, List.cons_append, List.cons_append,
        hcode _ (stops_cons (by decide) (by decide) _),
        run_mark assoc (by decide) (by decide) rfl hcomma, run_blank, hrun]

/-- Expressions in round brackets, up to the closing bracket. -/
theorem run_round (h : ∀ code ∈ codes, IsRead assoc code) {opener : Opener} {t : Tree}
    (hopener : opener.round? (codes.map (·.tree assoc)) = some t) (frame : Frame)
    (outer : List Frame) (rest : List Char) : run assoc ⟨{ opener }, frame :: outer, none⟩
        ((commas (codes.map Code.text)).toList ++ ')' :: rest) =
      run assoc ⟨{ frame with line := frame.line.fill t }, outer, none⟩ rest := by
  obtain ⟨inner, rfl, helements, hrun⟩ := run_elements assoc h opener [] (fun _ => rfl)
    (frame :: outer) (stops_cons (c := ')') (by decide) (by decide) rest)
  have hnone : ∀ pieces, inner.opener ≠ .embedded pieces := by
    intro pieces heq
    rw [heq] at hopener
    cases hopener
  rw [hrun]
  refine run_mark assoc (by decide) (by decide) rfl ?_
  simp only [step, leaveRound, leave, helements, List.nil_append, hopener, Option.bind_eq_bind,
    Option.bind_some]
  split
  · exact absurd ‹inner.opener = _› (hnone _)
  · rfl

/-- Expressions in square brackets, up to the closing bracket. -/
theorem run_square (h : ∀ code ∈ codes, IsRead assoc code) {opener : Opener} {t : Tree}
    (hopener : opener.square? (codes.map (·.tree assoc)) = some t) (frame : Frame)
    (outer : List Frame) (rest : List Char) : run assoc ⟨{ opener }, frame :: outer, none⟩
        ((commas (codes.map Code.text)).toList ++ ']' :: rest) =
      run assoc ⟨{ frame with line := frame.line.fill t }, outer, none⟩ rest := by
  obtain ⟨inner, rfl, helements, hrun⟩ := run_elements assoc h opener [] (fun _ => rfl)
    (frame :: outer) (stops_cons (c := ']') (by decide) (by decide) rest)
  rw [hrun]
  refine run_mark assoc (by decide) (by decide) rfl ?_
  simp only [step, leave, helements, List.nil_append, hopener, Option.bind_eq_bind,
    Option.bind_some]
  rfl

/-- The tag of a name, as an expression. -/
def tagCode (name : String) : Code := .call (.name "Val") [.symbol name]

theorem text_tagCode (name : String) : (tagCode name).text = tagText name := by
  simp [tagCode, commas, tagText, ← String.append_assoc]

theorem row_tagCode (name : String) : (tagCode name).row assoc = .single (tagTree name) := by
  change Row.single (.call (.leaf "Val") [(Row.single (.symbol name)).resolve assoc]) = _
  rw [Row.resolve_single]
  rfl

section Constructors

variable {assoc}

/-- Whether an expression is read as its row depends on its text and its row only. -/
theorem IsRead.congr {code' : Code} (h : IsRead assoc code) (htext : code'.text = code.text)
    (hrow : code'.row assoc = code.row assoc) : IsRead assoc code' := by
  intro s rest hrest
  rw [htext, hrow]
  exact h s rest hrest

theorem isRead_name {text : String} (h : isName text) : IsRead assoc (.name text) :=
  fun s _ hrest => run_name assoc s h hrest

/-- A sign, and what does not start with one. -/
theorem run_sign (s : Spot) (op : SumOp) (hcs : Unsigned cs) (rest : List Char) :
    run assoc s.awaiting (op.spelling.toList ++ (cs ++ rest)) =
      run assoc (s.signed (.sign op)).awaiting (cs ++ rest) := by
  obtain ⟨c, cs, rfl, hc⟩ := hcs
  exact run_lexeme assoc (lexeme?_sign op hc _) (by cases op <;> rfl)

theorem isRead_integer (value : Int) : IsRead assoc (.integer value) := by
  intro s rest hrest
  have hnumber := fun n => isNumber_of_areDigits (areDigits_toDigits n)
  by_cases hneg : value < 0
  · -- the minus sign is a sign, not a part of the number
    have hleaf : String.ofList (Nat.toDigits 10 value.natAbs) = toString value.natAbs := rfl
    rw [Code.row, if_pos hneg, s.behind_signed, Code.text, toList_toString_of_neg hneg]
    change run assoc _ (SumOp.sub.spelling.toList ++ (_ ++ rest)) = _
    rw [run_sign _ _ (unsigned_of_areDigits (areDigits_toDigits _)),
      run_number assoc _ (hnumber _) hrest, hleaf]
  · have hleaf : String.ofList (Nat.toDigits 10 value.toNat) = toString value := by
      rw [← toList_toString_of_nonneg (by omega), String.ofList_toList]
    rw [Code.row, if_neg hneg, Code.text, toList_toString_of_nonneg (by omega),
      run_number assoc _ (hnumber _) hrest, hleaf]

theorem isRead_float (value : Binary64) : IsRead assoc (.float value) := by
  intro s rest hrest
  cases value with
  | infinite => exact run_name assoc s (by decide) hrest
  | finite significand exponent =>
    rw [Code.text, run_number assoc s (Binary64.isNumber_textWith "Inf" significand exponent) hrest,
      String.ofList_toList, Code.row]

theorem isRead_everything : IsRead assoc .everything := by
  intro s rest hrest
  rw [Code.row, s.behind_single]
  exact run_mark assoc (by decide) (by decide) rfl rfl

variable {operands : List (Operator × Code)} {arguments : List Code} {name : String}

theorem isRead_symbol (h : isName name) : IsRead assoc (.symbol name) := by
  intro s rest hrest
  have htext : (Code.symbol name).text.toList = ':' :: name.toList := by
    simp
  rw [htext, Code.row, s.behind_single, List.cons_append,
    run_mark assoc (by decide) (by decide) rfl rfl]
  exact run_lexeme assoc (lexeme?_name h hrest) rfl

/-- A sign before an operand. -/
theorem isRead_sign (op : SumOp) {operand : Code} (h : IsRead assoc operand)
    (hunsigned : Unsigned operand.text.toList) : IsRead assoc (.sign op operand) := by
  intro s rest hrest
  rw [Code.row, s.behind_signed, ← h _ rest hrest, Code.text, String.toList_append,
    List.append_assoc]
  exact run_sign s op hunsigned rest

theorem isRead_not {operand : Code} (h : IsRead assoc operand) : IsRead assoc (.not operand) := by
  intro s rest hrest
  rw [Code.row, s.behind_signed, ← h _ rest hrest, Code.text, String.toList_append,
    List.append_assoc]
  exact run_mark assoc (by decide) (by decide) rfl rfl

/-- The further operands of a chain start with a blank. -/
theorem stops_restText (operands : List (Operator × Code)) (hrest : Stops rest) :
    Stops ((Code.restText operands).toList ++ rest) := by
  cases operands with
  | nil => exact hrest
  | cons x operands =>
    have hblank : ∃ tail, (Code.restText (x :: operands)).toList = ' ' :: tail := by
      simp
    obtain ⟨tail, htail⟩ := hblank
    rw [htail]
    exact stops_cons (by decide) (by decide) _

/-- Operands with operators between them, behind a row. -/
theorem run_restText (h : ∀ x ∈ operands, IsRead assoc x.2) (s : Spot) (r : Row)
    (hrest : Stops rest) :
    run assoc (s.behind r) ((Code.restText operands).toList ++ rest) =
      run assoc (s.behind (r.extend (Code.links assoc operands))) rest := by
  induction operands generalizing r with
  | nil => rfl
  | cons x operands ih =>
    obtain ⟨op, code⟩ := x
    have hcode : IsRead assoc code := h (op, code) (by simp)
    have htext : (Code.restText ((op, code) :: operands)).toList ++ rest =
        ' ' :: (op.spelling.toList ++
          ' ' :: (code.text.toList ++ ((Code.restText operands).toList ++ rest))) := by
      simp
    rw [htext, run_operator, hcode _ _ (stops_restText operands hrest), ← s.behind_join,
      ih (fun y hy => h y (by simp [hy]))]
    rfl

theorem isRead_chain {first : Code} (hfirst : IsRead assoc first)
    (h : ∀ x ∈ operands, IsRead assoc x.2) : IsRead assoc (.chain first operands) := by
  intro s rest hrest
  rw [Code.text, String.toList_append, List.append_assoc,
    hfirst _ _ (stops_restText operands hrest),
    run_restText h _ _ hrest, Code.row]

/-- A colon behind a row, and an operand. -/
theorem run_colon_operand (h : IsRead assoc code) (s : Spot) (r : Row) (hrest : Stops rest) :
    run assoc (s.behind r) (':' :: (code.text.toList ++ rest)) =
      run assoc (s.behind (r.join .colon (code.row assoc))) rest := by
  rw [run_colon, h _ _ hrest, s.behind_join]

theorem isRead_range {first last : Code} {step : Option Code} (hfirst : IsRead assoc first)
    (hstep : ∀ code ∈ step, IsRead assoc code) (hlast : IsRead assoc last) :
    IsRead assoc (.range first step last) := by
  intro s rest hrest
  have hcolon : ∀ cs, Stops (':' :: cs) := fun cs => stops_cons (by decide) (by decide) cs
  cases step with
  | none =>
    have htext : (Code.range first none last).text.toList ++ rest =
        first.text.toList ++ ':' :: (last.text.toList ++ rest) := by
      simp
    rw [htext, hfirst _ _ (hcolon _), run_colon_operand hlast _ _ hrest, Code.row]
    rfl
  | some step =>
    have htext : (Code.range first (some step) last).text.toList ++ rest =
        first.text.toList ++ ':' :: (step.text.toList ++ ':' :: (last.text.toList ++ rest)) := by
      simp
    rw [htext, hfirst _ _ (hcolon _), run_colon_operand (hstep step (by simp)) _ _ (hcolon _),
      run_colon_operand hlast _ _ hrest, Code.row]
    rfl

/-! ### Brackets -/

theorem isRead_tuple (h : ∀ code ∈ codes, IsRead assoc code) : IsRead assoc (.tuple codes) := by
  intro s rest hrest
  have htext : (Code.tuple codes).text.toList ++ rest =
      '(' :: ((commas (codes.map Code.text)).toList ++ ')' :: rest) := by
    simp [Code.texts_eq_map]
  rw [htext, run_mark assoc (by decide) (by decide) rfl rfl, Code.row, s.behind_single,
    Code.trees_eq_map]
  exact run_round assoc h rfl _ s.outer rest

/-- A bracket around one expression is written as a bracket around a list of it. -/
theorem isRead_group {inner : Code} (h : IsRead assoc inner) : IsRead assoc (.group inner) := by
  have htuple : IsRead assoc (.tuple [inner]) := isRead_tuple (by simpa using h)
  exact htuple.congr (by simp [commas]) rfl

theorem isRead_vector (h : ∀ code ∈ codes, IsRead assoc code) : IsRead assoc (.vector codes) := by
  intro s rest hrest
  have htext : (Code.vector codes).text.toList ++ rest =
      '[' :: ((commas (codes.map Code.text)).toList ++ ']' :: rest) := by
    simp [Code.texts_eq_map]
  rw [htext, run_mark assoc (by decide) (by decide) rfl rfl, Code.row, s.behind_single,
    Code.trees_eq_map]
  exact run_square assoc h rfl _ s.outer rest

theorem isRead_call {function : Code} (hfunction : IsRead assoc function)
    (h : ∀ code ∈ arguments, IsRead assoc code) : IsRead assoc (.call function arguments) := by
  intro s rest hrest
  obtain ⟨t, ht, hbehind⟩ := s.exists_behind (function.row assoc)
  have htext : (Code.call function arguments).text.toList ++ rest = function.text.toList ++
      '(' :: ((commas (arguments.map Code.text)).toList ++ ')' :: rest) := by
    simp [Code.texts_eq_map]
  have hopen : (Line.put s.before s.signs (function.row assoc)).openRound = .call t := by
    rw [Line.openRound, ht]
  rw [htext, hfunction _ _ (stops_cons (by decide) (by decide) _),
    run_mark assoc (by decide) (by decide) rfl rfl, Code.row, hbehind, Code.trees_eq_map]
  exact run_round assoc h (by rw [hopen]; rfl) _ s.outer rest

theorem isRead_subscript {base : Code} {indices : List Code} (hbase : IsRead assoc base)
    (h : ∀ code ∈ indices, IsRead assoc code) :
    IsRead assoc (.subscript base indices) := by
  intro s rest hrest
  obtain ⟨t, ht, hbehind⟩ := s.exists_behind (base.row assoc)
  have htext : (Code.subscript base indices).text.toList ++ rest = base.text.toList ++
      '[' :: ((commas (indices.map Code.text)).toList ++ ']' :: rest) := by
    simp [Code.texts_eq_map]
  have hopen : step assoc (s.behind (base.row assoc)) .bracketOpen =
      some ((s.behind (base.row assoc)).enter (.subscript t)) := by
    simp only [step, Line.openSquare?, ht, Option.bind_eq_bind, Option.bind_some]
    rfl
  rw [htext, hbase _ _ (stops_cons (by decide) (by decide) _),
    run_mark assoc (by decide) (by decide) rfl hopen, Code.row, hbehind, Code.trees_eq_map]
  exact run_square assoc h rfl _ s.outer rest

theorem isRead_member {base : Code} (hbase : IsRead assoc base) (hname : isName name) :
    IsRead assoc (.member base name) := by
  intro s rest hrest
  obtain ⟨t, ht, hbehind⟩ := s.exists_behind (base.row assoc)
  have htext : (Code.member base name).text.toList ++ rest = base.text.toList ++
      '.' :: (name.toList ++ rest) := by
    simp
  have hdot : step assoc (s.behind (base.row assoc)) .dot =
      some ⟨⟨s.opener, s.elements,
        { Line.put s.before s.signs (base.row assoc) with slot := .dotted t }⟩, s.outer, none⟩ := by
    simp only [step, onLine, Line.dot?, ht, Option.bind_eq_bind, Option.bind_some]
    rfl
  obtain ⟨c, cs, hcs, hc⟩ := exists_of_isName hname
  have hstop : Stops ('.' :: (name.toList ++ rest)) := by
    rw [hcs, List.cons_append]
    exact stops_dot (isDigit_eq_false_of_isWordStart hc) _
  have hlexeme : lexeme? ('.' :: (name.toList ++ rest)) = some (.dot, name.toList ++ rest) := by
    rw [hcs, List.cons_append]
    exact lexeme?_dot hc _
  rw [htext, hbase _ _ hstop, run_lexeme assoc hlexeme hdot, Code.row, hbehind]
  exact run_lexeme assoc (lexeme?_name hname hrest) rfl

theorem isRead_broadcast {function : String} (hfunction : isName function)
    (h : ∀ code ∈ arguments, IsRead assoc code) : IsRead assoc (.broadcast function arguments) := by
  intro s rest hrest
  have htext : (Code.broadcast function arguments).text.toList ++ rest = function.toList ++
      '.' :: '(' :: ((commas (arguments.map Code.text)).toList ++ ')' :: rest) := by
    simp [Code.texts_eq_map]
  rw [htext, run_name assoc _ hfunction (stops_dot (by decide) _), s.behind_single,
    run_mark assoc (by decide) (by decide) rfl rfl,
    run_mark assoc (by decide) (by decide) rfl rfl, Code.row, s.behind_single, Code.trees_eq_map]
  exact run_round assoc h rfl _ s.outer rest

theorem isRead_tagCode (h : isName name) : IsRead assoc (tagCode name) :=
  isRead_call (isRead_name (by decide)) (by simpa using isRead_symbol h)

theorem isRead_staticCall {owner method : String} (howner : isName owner) (hmethod : isName method)
    (h : ∀ code ∈ arguments, IsRead assoc code) :
    IsRead assoc (.staticCall owner method arguments) := by
  have hcall : IsRead assoc
      (.call (.name "__static__") (tagCode owner :: tagCode method :: arguments)) := by
    refine isRead_call (isRead_name (by decide)) ?_
    simp only [List.forall_mem_cons]
    exact ⟨isRead_tagCode howner, isRead_tagCode hmethod, h⟩
  refine hcall.congr ?_ ?_
  · simp [text_tagCode]
  · simp only [Code.row, Code.trees, row_tagCode, Row.resolve_single]
    rfl

theorem isRead_methodCall {method : String} (hmethod : isName method)
    (h : ∀ code ∈ arguments, IsRead assoc code) : IsRead assoc (.methodCall method arguments) := by
  have hcall : IsRead assoc (.call (.name "__method__") (tagCode method :: arguments)) := by
    refine isRead_call (isRead_name (by decide)) ?_
    simp only [List.forall_mem_cons]
    exact ⟨isRead_tagCode hmethod, h⟩
  refine hcall.congr ?_ ?_
  · simp [text_tagCode]
  · simp only [Code.row, Code.trees, row_tagCode, Row.resolve_single]
    rfl

/-! ### Parts of strings -/

/-- An expression in a string. -/
theorem run_embedded (h : IsRead assoc code) (frame : Frame) (outer : List Frame)
    (pieces : List Piece) (rest : List Char) :
    run assoc ⟨frame, outer, some pieces⟩ ('$' :: '(' :: (code.text.toList ++ ')' :: rest)) =
      run assoc ⟨frame, outer, some (pieces ++ [Piece.embedded (code.tree assoc)])⟩ rest := by
  have hopen : State.next? assoc ⟨frame, outer, some pieces⟩
      ('$' :: '(' :: (code.text.toList ++ ')' :: rest)) =
        some (⟨⟨.embedded pieces, [], {}⟩, frame :: outer, none⟩, code.text.toList ++
          ')' :: rest) :=
    rfl
  rw [run_of_next? assoc hopen, h { opener := .embedded pieces, outer := frame :: outer } _
    (stops_cons (by decide) (by decide) _)]
  refine run_mark assoc (by decide) (by decide) rfl ?_
  simp only [step, leaveRound, elements?_put, Line.attach_none, Option.bind_eq_bind,
    Option.bind_some]
  rfl

/-- The parts of a string, up to the closing quote. -/
theorem run_parts {parts : List CodePart} (h : ∀ code, .embedded code ∈ parts → IsRead assoc code)
    (frame : Frame) (outer : List Frame) (pieces : List Piece) (rest : List Char) :
    run assoc ⟨frame, outer, some pieces⟩ ((CodePart.texts parts).toList ++ '"' :: rest) =
      run assoc
        ⟨{ frame with line := frame.line.fill (.str (pieces ++ CodePart.pieces assoc parts)) },
          outer, none⟩ rest := by
  induction parts generalizing pieces with
  | nil =>
    rw [CodePart.pieces, List.append_nil]
    exact run_of_next? assoc rfl
  | cons part parts ih =>
    have hrest := ih fun code hcode => h code (by simp [hcode])
    cases part with
    | literal text =>
      rw [CodePart.texts, String.toList_append, List.append_assoc, run_escapeText, hrest,
        CodePart.pieces, List.append_assoc]
    | embedded code =>
      have htext : (CodePart.texts (.embedded code :: parts)).toList ++ '"' :: rest =
          '$' :: '(' ::
            (code.text.toList ++ ')' :: ((CodePart.texts parts).toList ++ '"' :: rest)) := by
        simp
      rw [htext, run_embedded (h code (by simp)), hrest, CodePart.pieces, List.append_assoc]
      rfl

theorem isRead_str {parts : List CodePart}
    (h : ∀ code, .embedded code ∈ parts → IsRead assoc code) :
    IsRead assoc (.str parts) := by
  intro s rest hrest
  have htext : (Code.str parts).text.toList ++ rest =
      '"' :: ((CodePart.texts parts).toList ++ '"' :: rest) := by
    simp
  rw [htext, run_mark assoc (by decide) (by decide) rfl rfl, run_parts h, Code.row, s.behind_single]
  rfl

end Constructors

/-! ## All expressions -/

mutual

/-- The text of an expression is passed as its row. -/
theorem isRead {code : Code} (h : code.isLexical) : IsRead assoc code := by
  cases code with
  | name text => exact isRead_name h
  | boolean value => exact (isRead_name (by cases value <;> decide)).congr rfl rfl
  | nothing | lastIndex => exact (isRead_name (by decide)).congr rfl rfl
  | integer value => exact isRead_integer value
  | float value => exact isRead_float value
  | str parts => exact isRead_str (isRead_of_mem_parts h)
  | symbol name => exact isRead_symbol h
  | everything => exact isRead_everything
  | group inner => exact isRead_group (isRead h)
  | tuple elements => exact isRead_tuple (isRead_of_mem h)
  | vector elements => exact isRead_vector (isRead_of_mem h)
  | spread sequence => cases h
  | chain first rest =>
    obtain ⟨hfirst, hrest⟩ := Bool.and_eq_true_iff.mp h
    exact isRead_chain (isRead hfirst) (isRead_of_mem_rest hrest)
  | not operand => exact isRead_not (isRead h)
  | sign op operand =>
    obtain ⟨hoperand, hunsigned⟩ := Bool.and_eq_true_iff.mp h
    exact isRead_sign op (isRead hoperand) (unsigned_text hoperand (by simpa using hunsigned))
  | range first step last =>
    cases step with
    | none =>
      obtain ⟨hfirst, hlast⟩ := Bool.and_eq_true_iff.mp h
      exact isRead_range (isRead hfirst) (by simp) (isRead hlast)
    | some step =>
      obtain ⟨hboth, hlast⟩ := Bool.and_eq_true_iff.mp h
      obtain ⟨hfirst, hstep⟩ := Bool.and_eq_true_iff.mp hboth
      have hread := isRead hstep
      exact isRead_range (isRead hfirst) (by simpa using hread) (isRead hlast)
  | call function arguments =>
    obtain ⟨hfunction, harguments⟩ := Bool.and_eq_true_iff.mp h
    exact isRead_call (isRead hfunction) (isRead_of_mem harguments)
  | broadcast function arguments =>
    obtain ⟨hfunction, harguments⟩ := Bool.and_eq_true_iff.mp h
    exact isRead_broadcast hfunction (isRead_of_mem harguments)
  | statistic function arguments =>
    obtain ⟨hfunction, harguments⟩ := Bool.and_eq_true_iff.mp h
    exact (isRead_call (isRead_name hfunction) (isRead_of_mem harguments)).congr rfl rfl
  | staticCall owner method arguments =>
    obtain ⟨hboth, harguments⟩ := Bool.and_eq_true_iff.mp h
    obtain ⟨howner, hmethod⟩ := Bool.and_eq_true_iff.mp hboth
    exact isRead_staticCall howner hmethod (isRead_of_mem harguments)
  | methodCall method arguments =>
    obtain ⟨hmethod, harguments⟩ := Bool.and_eq_true_iff.mp h
    exact isRead_methodCall hmethod (isRead_of_mem harguments)
  | member base name =>
    obtain ⟨hbase, hname⟩ := Bool.and_eq_true_iff.mp h
    exact isRead_member (isRead hbase) hname
  | subscript base indices =>
    obtain ⟨hbase, hindices⟩ := Bool.and_eq_true_iff.mp h
    exact isRead_subscript (isRead hbase) (isRead_of_mem hindices)

theorem isRead_of_mem :
    ∀ {codes : List Code}, Code.areLexical codes → ∀ code ∈ codes, IsRead assoc code
  | [], _ => by simp
  | code :: codes, h => by
    obtain ⟨hcode, hcodes⟩ := Bool.and_eq_true_iff.mp h
    exact List.forall_mem_cons.mpr ⟨isRead hcode, isRead_of_mem hcodes⟩

theorem isRead_of_mem_rest : ∀ {operands : List (Operator × Code)},
    Code.restIsLexical operands → ∀ x ∈ operands, IsRead assoc x.2
  | [], _ => by simp
  | (op, code) :: operands, h => by
    obtain ⟨hcode, hoperands⟩ := Bool.and_eq_true_iff.mp h
    have hread : IsRead assoc code := isRead hcode
    exact List.forall_mem_cons.mpr ⟨hread, isRead_of_mem_rest hoperands⟩

theorem isRead_of_mem_parts : ∀ {parts : List CodePart}, CodePart.areLexical parts →
    ∀ code, .embedded code ∈ parts → IsRead assoc code
  | [], _ => by simp
  | .literal text :: parts, h => by
    have hlexical : CodePart.areLexical parts := h
    have hparts := isRead_of_mem_parts hlexical
    simpa using hparts
  | .embedded code :: parts, h => by
    obtain ⟨hcode, hparts⟩ := Bool.and_eq_true_iff.mp h
    have hread : IsRead assoc code := isRead hcode
    intro code' hmem
    rcases List.mem_cons.mp hmem with heq | hmem
    · obtain rfl := CodePart.embedded.inj heq
      exact hread
    · exact isRead_of_mem_parts hparts code' hmem

end

/-- The text of an emitted expression is read as its row, resolved. -/
theorem read_text (h : code.isLexical) : read assoc code.text = some (code.tree assoc) := by
  have hrun := isRead assoc h { opener := .whole } [] stops_nil
  rw [List.append_nil] at hrun
  have hend : ∀ s : State, run assoc s [] = some s := fun s => by rw [run]
  rw [read, hrun, hend]
  simp only [Option.bind_eq_bind, Option.bind_some, result?, Line.row?_put, Line.attach_none,
    Option.map_some]
  rfl

end Reading

end Offside.Julia
