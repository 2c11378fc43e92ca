import Offside.Proofs.Target.OneLine

/-!
# Blocks of emitted lines

The lines of an emitted text are walked with a depth: some lines open a block behind them, some
close one, and the branches of a condition stand one level out.  `walkLine` follows one line by its
characters alone and refuses a line whose indentation is not that of its depth.  A list of items is
laid out if the walk over its lines comes back to the depth it started from (`Item.AreLaid`).
-/

namespace Offside.Target

open Julia List

variable {opener rest text : String}

/-! ## Walking lines -/

/-- The number of blanks in front of a line. -/
def indentation (line : List Char) : Nat := (line.takeWhile (· == ' ')).length

/-- A line without the blanks in front of it. -/
def content (line : List Char) : List Char := line.dropWhile (· == ' ')

/-- How the lines start that open a block of statements. -/
def blockOpeners : List String := ["function ", "if ", "for ", "while "]

/-- How the lines start that open the fields of a record. -/
def recordOpener : String := "mutable struct "

/-- How the lines start that import a library. -/
def libraryOpener : String := "using "

/-- Whether a line opens a record or imports a library. -/
def isHead (text : List Char) : Bool :=
  recordOpener.toList.isPrefixOf text || libraryOpener.toList.isPrefixOf text

/-- Whether a line opens a block behind it. -/
def opens (text : List Char) : Bool :=
  (recordOpener :: blockOpeners).any fun opener => opener.toList.isPrefixOf text

/-- Whether a line stands between two branches. -/
def divides (text : List Char) : Bool :=
  "elseif ".toList.isPrefixOf text || text == "else".toList

/-- Whether a line closes a block. -/
def closes (text : List Char) : Bool := text == "end".toList

/-- The depth behind a line, if the line has the indentation of its depth.  Lines without text have
none. -/
def walkLine (depth : Nat) (line : List Char) : Option Nat :=
  let text := content line
  if text.isEmpty then some depth
  else if closes text then
    if 0 < depth ∧ indentation line = 4 * (depth - 1) then some (depth - 1) else none
  else if divides text then
    if 0 < depth ∧ indentation line = 4 * (depth - 1) then some depth else none
  else if indentation line = 4 * depth then some (if opens text then depth + 1 else depth)
  else none

/-- The lines that open records, without the blanks in front of them. -/
def recordLines (lines : List (List Char)) : List (List Char) :=
  (lines.map content).filter (recordOpener.toList.isPrefixOf ·)

/-- The lines that open records or import libraries, without the blanks in front of them. -/
def headLines (lines : List (List Char)) : List (List Char) := (lines.map content).filter isHead

theorem recordLines_eq (lines : List (List Char)) :
    recordLines lines = (headLines lines).filter (recordOpener.toList.isPrefixOf ·) := by
  rw [headLines, filter_filter, recordLines]
  refine filter_congr fun text _ => ?_
  rw [isHead]
  cases recordOpener.toList.isPrefixOf text <;> rfl

/-- The characters of a line, without its end. -/
def Line.chars : Line → List Char
  | blank => []
  | code depth text => replicate (4 * depth) ' ' ++ text.toList

theorem Line.toList_text (line : Line) : line.text.toList = line.chars ++ ['\n'] := by
  cases line with
  | blank => rfl
  | code depth text => simp [Line.text, Line.chars]

section Kinds

variable {c : Char} {rest : List Char}

theorem content_chars (htext : text.toList = c :: rest) (hc : c ≠ ' ') (depth : Nat) :
    content (Line.code depth text).chars = text.toList := by
  have hblanks : ∀ d ∈ replicate (4 * depth) ' ', (d == ' ') := by simp
  rw [content, Line.chars, dropWhile_append_of_pos hblanks, htext]
  simp [hc]

theorem indentation_chars (htext : text.toList = c :: rest) (hc : c ≠ ' ') (depth : Nat) :
    indentation (Line.code depth text).chars = 4 * depth := by
  have hblanks : ∀ d ∈ replicate (4 * depth) ' ', (d == ' ') := by simp
  rw [indentation, Line.chars, takeWhile_append_of_pos hblanks, htext]
  simp [hc]

end Kinds

/-- A text that starts with a word of blocks and a blank has that word as its first one. -/
theorem leadWord_of_isPrefixOf {word : String} (hword : word ∈ blockWords) {cs : List Char}
    (h : (word ++ " ").toList.isPrefixOf cs) : leadWord cs = word.toList := by
  have hwords : ∀ word ∈ blockWords, leadWord word.toList = word.toList := by decide
  have hblank : isNamePart ' ' = false := by decide
  obtain ⟨rest, rfl⟩ := isPrefixOf_iff_prefix.mp h
  rw [String.toList_append, append_assoc]
  exact (leadWord_append (head_mark hblank rest) _).trans (hwords word hword)

/-- A line that does not start with a word of blocks neither opens nor divides nor closes a block.
-/
theorem StartsPlain.kinds {cs : List Char} (h : StartsPlain cs) :
    opens cs = false ∧ divides cs = false ∧ closes cs = false ∧ isHead cs = false := by
  obtain ⟨-, -, -, -, hlead⟩ := h
  have hwords : ∀ word ∈ blockWords, leadWord word.toList = word.toList := by decide
  have hline {word : String} (hword : word ∈ blockWords) : cs ≠ word.toList := by
    rintro rfl
    rw [hwords word hword, String.ofList_toList] at hlead
    exact hlead hword
  have hstart {start : String}
    (hstart : ∃ word ∈ blockWords, (word ++ " ").toList.isPrefixOf start.toList) :
      start.toList.isPrefixOf cs = false := by
    obtain ⟨word, hword, hprefix⟩ := hstart
    refine Bool.eq_false_iff.mpr fun h => hlead ?_
    have hword' := isPrefixOf_iff_prefix.mp hprefix
    have hstart' := isPrefixOf_iff_prefix.mp h
    have hwhole := isPrefixOf_iff_prefix.mpr (hword'.trans hstart')
    rw [leadWord_of_isPrefixOf hword hwhole, String.ofList_toList]
    exact hword
  refine ⟨?_, ?_, ?_, ?_⟩
  · have hopeners : ∀ opener ∈ recordOpener :: blockOpeners,
        ∃ word ∈ blockWords, (word ++ " ").toList.isPrefixOf opener.toList := by decide
    simp only [opens, any_eq_false]
    intro opener hopener
    simp [hstart (hopeners opener hopener)]
  · have helseif : "elseif ".toList.isPrefixOf cs = false := hstart (by decide)
    have helse : cs ≠ "else".toList := hline (by decide)
    simp only [divides, helseif, Bool.false_or, beq_eq_false_iff_ne]
    exact helse
  · have hend : cs ≠ "end".toList := hline (by decide)
    simpa only [closes, beq_eq_false_iff_ne] using hend
  · have hrecord : recordOpener.toList.isPrefixOf cs = false := hstart (by decide)
    have hlibrary : libraryOpener.toList.isPrefixOf cs = false := hstart (by decide)
    rw [isHead, hrecord, hlibrary, Bool.or_self]

section Walks

variable (depth : Nat)

theorem walkLine_plain (h : StartsPlain text.toList) :
    walkLine depth (Line.code depth text).chars = some depth := by
  obtain ⟨hopens, hdivides, hcloses, -⟩ := h.kinds
  obtain ⟨c, rest, htext, hc, -⟩ := h
  have hsome : text.toList.isEmpty = false := by simp [htext]
  simp [walkLine, content_chars htext hc, indentation_chars htext hc, hsome, hopens,
    hdivides, hcloses]

/-- A line that opens a block stands at the depth before it. -/
theorem walkLine_opener {opener : String} (h : opener ∈ recordOpener :: blockOpeners)
    (rest : String) :
    walkLine depth (Line.code depth (opener ++ rest)).chars = some (depth + 1) := by
  have hopens : opens (opener ++ rest).toList := by
    refine any_eq_true.mpr ⟨opener, h, ?_⟩
    rw [String.toList_append]
    exact isPrefixOf_iff_prefix.mpr (prefix_append _ _)
  obtain ⟨c, cs, htext, hc, hdivides, hcloses⟩ : ∃ c cs, (opener ++ rest).toList =
    c :: cs ∧ c ≠ ' ' ∧
      divides (opener ++ rest).toList = false ∧ closes (opener ++ rest).toList = false := by
    rw [String.toList_append]
    simp only [recordOpener, blockOpeners, mem_cons, not_mem_nil, or_false] at h
    rcases h with rfl | rfl | rfl | rfl | rfl <;>
      exact ⟨_, _, rfl, by decide, rfl, rfl⟩
  have hsome : (opener ++ rest).toList.isEmpty = false := by rw [htext]; rfl
  simp only [walkLine, content_chars htext hc, indentation_chars htext hc, hsome, hopens, hdivides,
    hcloses, Bool.false_eq_true, if_false, if_true]

/-- A line between two branches stands one level out. -/
theorem walkLine_divider (h : text = "else" ∨ ∃ rest, text = "elseif " ++ rest) :
    walkLine (depth + 1) (Line.code depth text).chars = some (depth + 1) := by
  obtain ⟨c, cs, htext, hc, hdivides, hcloses⟩ : ∃ c cs, text.toList = c :: cs ∧ c ≠ ' ' ∧
      divides text.toList ∧ closes text.toList = false := by
    rcases h with rfl | ⟨rest, rfl⟩
    · exact ⟨_, _, rfl, by decide, rfl, rfl⟩
    · rw [String.toList_append]
      exact ⟨_, _, rfl, by decide, by simp [divides], rfl⟩
  have hsome : text.toList.isEmpty = false := by rw [htext]; rfl
  simp [walkLine, content_chars htext hc, indentation_chars htext hc, hsome, hdivides, hcloses]

theorem walkLine_library (name : String) :
    walkLine depth (Line.code depth (libraryOpener ++ name)).chars = some depth := by
  have htext : (libraryOpener ++ name).toList = 'u' :: ("sing ".toList ++ name.toList) := by
    rw [String.toList_append]
    rfl
  have hkinds : (libraryOpener ++ name).toList.isEmpty = false ∧
    closes (libraryOpener ++ name).toList = false ∧
      divides (libraryOpener ++ name).toList = false ∧
        opens (libraryOpener ++ name).toList = false := by
    rw [htext]
    exact ⟨rfl, rfl, rfl, rfl⟩
  have hc : 'u' ≠ ' ' := by decide
  simp only [walkLine, content_chars htext hc, indentation_chars htext hc, hkinds,
    Bool.false_eq_true, if_false,
    if_true]

theorem walkLine_end : walkLine (depth + 1) (Line.code depth "end").chars = some depth := by
  have htext : "end".toList = 'e' :: ['n', 'd'] := rfl
  have hc : 'e' ≠ ' ' := by decide
  have hkind : "end".toList.isEmpty = false ∧ closes "end".toList := ⟨rfl, rfl⟩
  simp only [walkLine, content_chars htext hc, indentation_chars htext hc, hkind]
  simp

end Walks

/-! ## Layouts of lines -/

/-- The walk over some lines leads from one depth to another, no line is broken, and the lines that
open records or import libraries are the given ones. -/
structure Laid (depth : Nat) (lines : List Line) (after : Nat) (heads : List String) : Prop where
  walk : (lines.map Line.chars).foldlM walkLine depth = some after
  printable : ∀ own text, .code own text ∈ lines → isPrintable text = true
  opened : headLines (lines.map Line.chars) = heads.map String.toList

theorem laid_nil (depth : Nat) : Laid depth [] depth [] :=
  ⟨rfl, fun _ _ h => absurd h not_mem_nil, rfl⟩

theorem Laid.append {depth mid after : Nat} {xs ys : List Line} {first second : List String}
    (hxs : Laid depth xs mid first) (hys : Laid mid ys after second) :
    Laid depth (xs ++ ys) after (first ++ second) where
  walk := by
    rw [map_append, foldlM_append, hxs.walk]
    exact hys.walk
  printable own text h := (mem_append.mp h).elim (hxs.printable own text) (hys.printable own text)
  opened := by
    have hopened := hxs.opened
    simp only [headLines, map_append, filter_append] at hopened ⊢
    rw [hopened]
    exact congrArg _ hys.opened

theorem laid_blank (depth : Nat) : Laid depth [.blank] depth [] where
  walk := rfl
  printable _ _ h := by simp at h
  opened := rfl

section Lines

variable {depth own after : Nat}

/-- A line that opens no record and imports no library. -/
theorem laid_line (hwalk : walkLine depth (Line.code own text).chars = some after)
    (hprintable : isPrintable text) (hhead : isHead (content (Line.code own text).chars) = false) :
    Laid depth [.code own text] after [] where
  walk := by simp [hwalk]
  printable _ _ h := by
    cases mem_singleton.mp h
    exact hprintable
  opened := by simp [headLines, hhead]

theorem laid_plain (hprintable : isPrintable text) (h : StartsPlain text.toList) :
    Laid depth [.code depth text] depth [] := by
  refine laid_line (walkLine_plain depth h) hprintable ?_
  have hhead := h.kinds.2.2.2
  obtain ⟨c, rest, htext, hc, -⟩ := h
  rwa [content_chars htext hc]

theorem laid_opener (h : opener ∈ blockOpeners) (hprintable : isPrintable rest) :
    Laid depth [.code depth (opener ++ rest)] (depth + 1) [] := by
  have hopeners : ∀ opener ∈ blockOpeners, isPrintable opener := by decide
  refine laid_line (walkLine_opener depth (mem_cons_of_mem _ h) rest) ?_ ?_
  · simp [hopeners opener h, hprintable]
  · obtain ⟨c, cs, htext, hc, hhead⟩ : ∃ c cs, (opener ++ rest).toList = c :: cs ∧ c ≠ ' ' ∧
        isHead (opener ++ rest).toList = false := by
      rw [String.toList_append]
      simp only [blockOpeners, mem_cons, not_mem_nil, or_false] at h
      rcases h with rfl | rfl | rfl | rfl <;> exact ⟨_, _, rfl, by decide, rfl⟩
    rw [content_chars htext hc]
    exact hhead

theorem laid_else : Laid (depth + 1) [.code depth "else"] (depth + 1) [] := by
  have htext : "else".toList = 'e' :: ['l', 's', 'e'] := rfl
  refine laid_line (walkLine_divider depth (.inl rfl)) (by decide) ?_
  rw [content_chars htext (by decide)]
  rfl

theorem laid_elseif {rest : String} (h : isPrintable rest) :
    Laid (depth + 1) [.code depth ("elseif " ++ rest)] (depth + 1) [] := by
  have hword : isPrintable "elseif " := by decide
  have htext : ("elseif " ++ rest).toList =
      'e' :: (['l', 's', 'e', 'i', 'f', ' '] ++ rest.toList) := by
    rw [String.toList_append]
    rfl
  refine laid_line (walkLine_divider depth (.inr ⟨rest, rfl⟩)) (by simp [hword, h]) ?_
  rw [content_chars htext (by decide), htext]
  rfl

theorem laid_end : Laid (depth + 1) [.code depth "end"] depth [] := by
  have htext : "end".toList = 'e' :: ['n', 'd'] := rfl
  refine laid_line (walkLine_end depth) (by decide) ?_
  rw [content_chars htext (by decide)]
  rfl

/-- A line that opens a record or imports a library. -/
theorem laid_head (h : opener = recordOpener ∨ opener = libraryOpener)
    (hwalk : walkLine depth (Line.code depth (opener ++ rest)).chars = some after)
    (hprintable : isPrintable rest) :
    Laid depth [.code depth (opener ++ rest)] after [opener ++ rest] := by
  have hword : isPrintable opener := by rcases h with rfl | rfl <;> decide
  obtain ⟨c, cs, htext, hc, hhead⟩ : ∃ c cs, (opener ++ rest).toList = c :: cs ∧ c ≠ ' ' ∧
      isHead (opener ++ rest).toList := by
    rw [String.toList_append]
    rcases h with rfl | rfl <;> exact ⟨_, _, rfl, by decide, rfl⟩
  refine ⟨?_, ?_, ?_⟩
  · simp [hwalk]
  · intro own text hmem
    cases mem_singleton.mp hmem
    simp [hword, hprintable]
  · rw [headLines, map_singleton, map_singleton, content_chars htext hc, filter_cons_of_pos hhead]
    rfl

end Lines

/-! ## Layouts of items -/

theorem Item.allLines_append (depth : Nat) (xs ys : List Item) :
    Item.allLines depth (xs ++ ys) = Item.allLines depth xs ++ Item.allLines depth ys :=
  append_of_cons rfl (fun _ _ => rfl) xs ys

/-- The lines of some items are laid out, wherever the items stand. -/
def Item.AreLaid (items : List Item) (records : List String) : Prop :=
  ∀ depth, Laid depth (Item.allLines depth items) depth records

/-- The lines of an alternative are laid out inside the condition. -/
def Alternative.IsLaid (alternative : Alternative) : Prop :=
  ∀ depth, Laid (depth + 1) (alternative.lines depth) (depth + 1) []

/-- The lines of some items are laid out, and the last of them is not blank. -/
structure Item.AreTidy (items : List Item) (records : List String) : Prop where
  laid : Item.AreLaid items records
  ends (depth : Nat) : ∃ front text, Item.allLines depth items = front ++
    [Line.code depth text] ∧ text ≠ ""

namespace Item

theorem areLaid_nil : AreLaid [] [] := laid_nil

theorem AreLaid.append {xs ys : List Item} {first second : List String} (hxs : AreLaid xs first)
    (hys : AreLaid ys second) : AreLaid (xs ++ ys) (first ++ second) := by
  intro depth
  rw [allLines_append]
  exact (hxs depth).append (hys depth)

theorem AreLaid.append_tidy {xs ys : List Item} {first second : List String}
    (hxs : AreLaid xs first) (hys : AreTidy ys second) : AreTidy (xs ++ ys) (first ++ second) where
  laid := hxs.append hys.laid
  ends depth := by
    obtain ⟨front, text, hlines, htext⟩ := hys.ends depth
    exact ⟨allLines depth xs ++ front, text, by rw [allLines_append, hlines, append_assoc], htext⟩

theorem areLaid_blank : AreLaid [.blank] [] := laid_blank

/-- An item on one line that does not start with a word of blocks. -/
theorem areTidy_line {item : Item} (hlines : ∀ depth, item.lines depth = [.code depth text])
    (hprintable : isPrintable text) (hstart : StartsPlain text.toList) : AreTidy [item] [] where
  laid depth := by
    rw [allLines, allLines, hlines, append_nil]
    exact laid_plain hprintable hstart
  ends depth := by
    refine ⟨[], text, by rw [allLines, allLines, hlines]; rfl, ?_⟩
    rintro rfl
    obtain ⟨c, rest, hnil, -⟩ := hstart
    cases hnil

/-- An item that opens a block of statements. -/
theorem areTidy_block {item : Item} {inner : Nat → List Line}
    (hlines : ∀ depth, item.lines depth =
      .code depth (opener ++ rest) :: (inner depth ++ [Line.code depth "end"]))
    (hopener : opener ∈ blockOpeners) (hprintable : isPrintable rest)
    (hinner : ∀ depth, Laid (depth + 1) (inner depth) (depth + 1) []) : AreTidy [item] [] where
  laid depth := by
    have hopening : Laid depth [.code depth (opener ++ rest)] (depth + 1) [] :=
      laid_opener hopener hprintable
    rw [allLines, allLines, hlines, append_nil]
    exact hopening.append ((hinner depth).append laid_end)
  ends depth := by
    refine ⟨.code depth (opener ++ rest) :: inner depth, "end", ?_, by decide⟩
    rw [allLines, allLines, hlines, append_nil, cons_append]

section Statements

variable {signature : Signature} {condition code : Code} {body : List Item}

theorem areTidy_function (h : signature.IsLexical) (hbody : AreLaid body []) :
    AreTidy [.function signature body] [] :=
  areTidy_block (fun _ => rfl) (by decide) h.isPrintable_text fun depth => hbody (depth + 1)

theorem areTidy_conditional {alternative : Alternative} (hcondition : condition.isLexical)
    (hbody : AreLaid body []) (halternative : alternative.IsLaid) :
    AreTidy [.conditional condition body alternative] [] :=
  areTidy_block (fun _ => rfl) (by decide) (isPrintable_text hcondition) fun depth =>
    (hbody (depth + 1)).append (halternative depth)

theorem areTidy_forLoop {target : String} (htarget : isName target) (hcode : code.isLexical)
    (hbody : AreLaid body []) :
    AreTidy [.forLoop target code body] [] := by
  have hin : isPrintable " in " := by decide
  have hlines (depth : Nat) : lines depth (.forLoop target code body) =
      .code depth ("for " ++ (target ++ " in " ++ code.text)) ::
        (allLines (depth + 1) body ++ [Line.code depth "end"]) := by
    simp only [lines, String.append_assoc]
  refine areTidy_block hlines (by decide) ?_ fun depth => hbody (depth + 1)
  simp [isPrintable_of_isName htarget, isPrintable_text hcode, hin]

theorem areTidy_whileLoop (hcondition : condition.isLexical) (hbody : AreLaid body []) :
    AreTidy [.whileLoop condition body] [] :=
  areTidy_block (fun _ => rfl) (by decide) (isPrintable_text hcondition) fun depth =>
    hbody (depth + 1)

/-- Expressions that do not start with a word of blocks. -/
theorem areTidy_expressions {codes : List Code} (hcode : Code.areLexical (code :: codes))
    (hstart : code.startsPlain) : AreTidy [.expressions (code :: codes)] [] :=
  areTidy_line (fun _ => rfl) (isPrintable_commas (isPrintable_texts hcode))
    (startsPlain_commas (Bool.and_eq_true_iff.mp hcode).1 hstart)

theorem areTidy_returns {codes : List Code} (hcodes : Code.areLexical codes) :
    AreTidy [.returns codes] [] := by
  cases codes with
  | nil => exact areTidy_line (fun _ => rfl) (by decide) (startsPlain_cons (by decide) _)
  | cons code codes =>
    have hword : isPrintable "return " := by decide
    refine areTidy_line (fun _ => rfl) ?_ ?_
    · simp only [isPrintable_append, hword, isPrintable_commas (isPrintable_texts hcodes),
        Bool.and_self]
    · rw [String.toList_append]
      exact startsPlain_cons (by decide) _

theorem areTidy_breaks : AreTidy [.breaks] [] :=
  areTidy_line (fun _ => rfl) (by decide) (startsPlain_cons (by decide) _)

theorem areTidy_continues : AreTidy [.continues] [] :=
  areTidy_line (fun _ => rfl) (by decide) (startsPlain_cons (by decide) _)

theorem areTidy_library {name : String} (h : isName name) :
    AreTidy [.library name] ["using " ++ name] where
  laid depth := laid_head (.inr rfl) (walkLine_library depth name) (isPrintable_of_isName h)
  ends depth := ⟨[], "using " ++ name, rfl, by simp⟩

theorem areTidy_globals {names : List String} (h : ∀ name ∈ names, isName name) :
    AreTidy [.globals names] [] := by
  have hword : isPrintable "global " := by decide
  have hnames := isPrintable_commas fun name hname => isPrintable_of_isName (h name hname)
  refine areTidy_line (fun _ => rfl) (by simp [hword, hnames]) ?_
  rw [String.toList_append]
  exact startsPlain_cons (by decide) _

/-- An assignment starts as its first target does, or with the word that declares it global. -/
theorem areTidy_assign {isGlobal : Bool} {targets values : List Code} {type : Option TypeName}
    (htargets : Code.areLexical (code :: targets)) (hstart : code.startsPlain)
    (htype : ∀ t ∈ type, TypeName.isLexical t) (hvalues : Code.areLexical values) :
    AreTidy [.assign isGlobal (code :: targets) type values] [] := by
  have hlist := isPrintable_commas (isPrintable_texts htargets)
  refine areTidy_line (fun _ => rfl) ?_ ?_
  · have hglobal : isPrintable (if isGlobal then "global " else "") := by
      cases isGlobal <;> decide
    simp only [isPrintable_append, hglobal, hlist, isPrintable_typeText htype,
      isPrintable_commas (isPrintable_texts hvalues), isPrintable_marks, Bool.and_self]
  · simp only [String.toList_append, append_assoc]
    cases isGlobal with
    | true => exact startsPlain_cons (by decide) _
    | false =>
      have hfirst : StartsPlain (commas (Code.texts (code :: targets))).toList :=
        startsPlain_commas (Bool.and_eq_true_iff.mp htargets).1 hstart
      have hbehind : ∀ d ∈ ((typeText type).toList ++ (" = ".toList ++
          (commas (Code.texts values)).toList)).head?, isNamePart d = false := by
        cases type with
        | none => exact head_mark (by decide) _
        | some type =>
          rw [typeText, String.toList_append]
          exact head_mark (by decide) _
      exact hfirst.append hbehind

/-- An equation, whose name is no word of blocks. -/
theorem areTidy_equation (h : signature.IsLexical) (hstart : StartsPlain signature.name.toList)
    (hcode : code.isLexical) : AreTidy [.equation signature code] [] := by
  refine areTidy_line (fun _ => rfl) ?_ ?_
  · simp [h.isPrintable_text, isPrintable_text hcode]
  · simp only [Signature.text, String.toList_append, append_assoc]
    exact hstart.append (head_mark (by decide) _)

theorem areTidy_abstractType {type : TypeName} {supertype : Option TypeName}
    (htype : type.isLexical) (hsupertype : ∀ t ∈ supertype, TypeName.isLexical t) :
    AreTidy [.abstractType type supertype] [] := by
  have hwords : isPrintable "abstract type " ∧ isPrintable " end" ∧ isPrintable " <: " := by decide
  have htext := TypeName.isPrintable_text htype
  cases supertype with
  | none =>
    refine areTidy_line (fun _ => rfl) (by simp [hwords, htext]) ?_
    simp only [String.toList_append, append_assoc]
    exact startsPlain_cons (by decide) _
  | some supertype =>
    have hsuper := TypeName.isPrintable_text (hsupertype supertype rfl)
    refine areTidy_line (fun _ => rfl) (by simp [hwords, htext, hsuper]) ?_
    simp only [String.toList_append, append_assoc]
    exact startsPlain_cons (by decide) _

/-- The lines of the fields of a record. -/
theorem laid_fields {fields : List (String × TypeName)}
    (h : ∀ field ∈ fields, isName field.1 ∧ field.1 ∉ blockWords ∧ field.2.isLexical)
    (depth : Nat) :
    Laid depth (fields.map fun field => .code depth (field.1 ++ "::" ++ field.2.text))
      depth [] := by
  induction fields with
  | nil => exact laid_nil depth
  | cons field fields ih =>
    obtain ⟨⟨hname, hword, htype⟩, hfields⟩ := forall_mem_cons.mp h
    have hfirst : Laid depth [.code depth (field.1 ++ "::" ++ field.2.text)] depth [] := by
      refine laid_plain ?_ ?_
      · simp [isPrintable_of_isName hname, TypeName.isPrintable_text htype]
      · simp only [String.toList_append, append_assoc]
        exact (startsPlain_of_isName hname hword).append (head_mark (by decide) _)
    exact hfirst.append (ih hfields)

/-- The line that opens the record of the given name below the given type. -/
def recordLine (name : String) (supertype : TypeName) : String :=
  recordOpener ++ (name ++ " <: " ++ supertype.text)

/-- A record opens one block, for its fields. -/
theorem areTidy_record {name : String} {supertype : TypeName} {fields : List (String × TypeName)}
    (hname : isName name) (hword : name ∉ blockWords) (hsupertype : supertype.isLexical)
    (hfields : ∀ field ∈ fields, isName field.1 ∧ field.1 ∉ blockWords ∧ field.2.isLexical) :
    AreTidy [.record name supertype fields] [recordLine name supertype] := by
  have hmarks : isPrintable " <: " ∧ isPrintable ("__dict__::" ++ tableType) ∧
      isPrintable ("() = new(" ++ tableType ++ "())") := by decide
  have hlines (depth : Nat) : allLines depth [.record name supertype fields] =
      [Line.code depth (recordOpener ++ (name ++ " <: " ++ supertype.text))] ++
        ([Line.code (depth + 1) ("__dict__::" ++ tableType)] ++
        ((fields.map fun field => Line.code (depth + 1) (field.1 ++ "::" ++ field.2.text)) ++
        [Line.code (depth + 1) (name ++ ("() = new(" ++ tableType ++ "())"))])) ++
      [Line.code depth "end"] := by
    simp [allLines, lines, recordOpener, String.append_assoc]
  have hnameText := isPrintable_of_isName hname
  refine ⟨fun depth => ?_, fun depth => ⟨_, "end", hlines depth, by decide⟩⟩
  have hopening : Laid depth [.code depth (recordOpener ++ (name ++ " <: " ++ supertype.text))]
      (depth + 1) [recordOpener ++ (name ++ " <: " ++ supertype.text)] :=
    laid_head (.inl rfl) (walkLine_opener depth mem_cons_self _)
      (by simp [hnameText, TypeName.isPrintable_text hsupertype, hmarks])
  have htable : Laid (depth + 1) [.code (depth + 1) ("__dict__::" ++ tableType)]
      (depth + 1) [] := by
    refine laid_plain hmarks.2.1 ?_
    rw [String.toList_append]
    exact startsPlain_cons (by decide) _
  have hconstructor : Laid (depth + 1)
      [.code (depth + 1) (name ++ ("() = new(" ++ tableType ++ "())"))] (depth + 1) [] := by
    refine laid_plain (by rw [isPrintable_append, hnameText, hmarks.2.2]; rfl) ?_
    rw [String.toList_append]
    exact (startsPlain_of_isName hname hword).append (head_mark (by decide) _)
  have hall := (hopening.append (htable.append
    ((laid_fields hfields (depth + 1)).append hconstructor))).append laid_end
  rw [hlines]
  exact hall

end Statements

end Item

namespace Alternative

theorem isLaid_nothing : nothing.IsLaid := fun depth => laid_nil (depth + 1)

theorem isLaid_branch {condition : Code} {body : List Item} {alternative : Alternative}
    (hcondition : condition.isLexical) (hbody : Item.AreLaid body [])
    (halternative : alternative.IsLaid) : (branch condition body alternative).IsLaid := by
  intro depth
  exact (laid_elseif (isPrintable_text hcondition)).append
    ((hbody (depth + 1)).append (halternative depth))

theorem isLaid_block {body : List Item} (hbody : Item.AreLaid body []) : (block body).IsLaid :=
  fun depth => laid_else.append (hbody (depth + 1))

end Alternative

end Offside.Target
