import Offside.Proofs.Class.Lexical
import Offside.Proofs.Emit.Contents
import Offside.Proofs.Emit.Methods
import Offside.Proofs.Target.Blocks

/-!
# Blocks of emitted programs

The items that are emitted for well-formed statements are laid out: their lines open and close
blocks in pairs, at the right indentation (`tidy_statement`).  The items of a class open one record,
that of the class, and no other item does (`tidy_classDef`).
-/

namespace Offside

namespace Emit

open Julia Target List

/-! ## Scopes -/

variable {f : FunctionDef} {formals : List Formal} {type : Option TypeName}

theorem isPlainName_receiver (hf : ∀ p ∈ f.parameters, Parameter.isWellFormed p) {receiver : String}
    (h : f.receiver? = some receiver) : isPlainName receiver := by
  obtain ⟨p, hp, rfl⟩ := Option.map_eq_some_iff.mp h
  have hwf := hf p (mem_of_head? hp)
  simp only [Parameter.isWellFormed, Bool.and_eq_true] at hwf
  exact hwf.1.1

section Scopes

variable {scope : Scope} (hscope : scope.isLexical = true)

include hscope

theorem isLexical_ofFunction : scope.ofFunction.isLexical := by
  simp only [Scope.isLexical, Bool.and_eq_true] at hscope ⊢
  exact ⟨hscope.1, rfl⟩

theorem isLexical_ofLoop (target : Option String) : (scope.ofLoop target).isLexical := by
  unfold Scope.ofLoop
  split
  · exact hscope
  · exact hscope

theorem isLexical_ofMethod {className : String} (hclass : isPlainName className)
    (hf : ∀ p ∈ f.parameters, Parameter.isWellFormed p) :
    (scope.ofMethod className f).isLexical := by
  have hreceiver : f.receiver?.all Text.isWord := by
    rw [Option.all_eq_true]
    intro receiver hreceiver
    exact isWord_of_isPlainName (isPlainName_receiver hf hreceiver)
  simp only [Scope.isLexical, Bool.and_eq_true] at hscope ⊢
  exact ⟨⟨hscope.1.1, isWord_of_isPlainName hclass⟩, hreceiver⟩

end Scopes

/-! ## Types and parameters -/

theorem lexical_hintType {scope : Scope} {hint : Option TypeHint}
    (hwf : hint.all TypeHint.isWellFormed) (h : hintType scope hint = .ok type) :
    ∀ t ∈ type, TypeName.isLexical t := by
  cases hint with
  | none =>
    cases h
    simp
  | some hint =>
    obtain ⟨found, hfound, rfl⟩ := exists_of_map_eq_ok h
    rintro t ⟨⟩
    exact lexical_ofHint hwf hfound

theorem lexical_targetType {scope : Scope} {targets : List Declaration}
    (hwf : ∀ d ∈ targets, Declaration.isWellFormed d) (h : targetType scope targets = .ok type) :
    ∀ t ∈ type, TypeName.isLexical t := by
  unfold targetType at h
  split at h
  · obtain ⟨found, hfound, rfl⟩ := exists_of_map_eq_ok h
    have htarget := hwf _ mem_cons_self
    simp only [Declaration.isWellFormed, Bool.and_eq_true] at htarget
    rintro t ⟨⟩
    exact lexical_ofHint htarget.1.2 hfound
  · cases h
    simp

section Statements

variable {scope : Scope} (hscope : scope.isLexical = true)

include hscope

theorem lexical_defaultCode {value : Option Expression} {code : Option Code}
    (hwf : value.all Expression.isWellFormed) (h : defaultCode scope value = .ok code) :
    code.all Code.isLexical := by
  cases value with
  | none =>
    cases h
    rfl
  | some value =>
    obtain ⟨inner, hinner, rfl⟩ := exists_of_map_eq_ok h
    exact (holds_expression hwf hinner).lexical hscope

theorem lexical_formal {parameter : Parameter} {f : Formal} (hwf : parameter.isWellFormed)
    (h : formal scope parameter = .ok f) : f.isLexical := by
  simp only [Parameter.isWellFormed, Bool.and_eq_true] at hwf
  obtain ⟨type, default, htype, hdefault, rfl⟩ := exists_of_map₂_eq_ok h
  simp only [Formal.isLexical, Bool.and_eq_true, Option.all_eq_true (p := TypeName.isLexical)]
  exact ⟨⟨isName_escape_of_isPlainName hwf.1.1, lexical_hintType hwf.1.2 htype⟩,
    lexical_defaultCode hscope hwf.2 hdefault⟩

variable {a : Assignment} {codes : List Code} {parameters : List Parameter}

theorem lexical_formals (hwf : ∀ p ∈ parameters, Parameter.isWellFormed p)
    (h : parameters.mapM (formal scope) = .ok formals) : ∀ f ∈ formals, Formal.isLexical f := by
  induction parameters generalizing formals with
  | nil =>
    cases h
    exact forall_mem_nil _
  | cons p parameters ih =>
    obtain ⟨hp, hparameters⟩ := forall_mem_cons.mp hwf
    rw [mapM_cons] at h
    obtain ⟨f, rest, hf, hrest, rfl⟩ := exists_of_map₂_eq_ok h
    exact forall_mem_cons.mpr ⟨lexical_formal hscope hp hf, ih hparameters hrest⟩

theorem lexical_methodFormals {marker : TypeName} (hmarker : marker.isLexical)
    (hwf : ∀ p ∈ parameters, Parameter.isWellFormed p)
    (h : methodFormals scope marker parameters = .ok formals) :
    ∀ f ∈ formals, Formal.isLexical f := by
  cases parameters with
  | nil =>
    cases h
    exact forall_mem_nil _
  | cons receiver rest =>
    obtain ⟨hreceiver, hrest⟩ := forall_mem_cons.mp hwf
    simp only [Parameter.isWellFormed, Bool.and_eq_true] at hreceiver
    obtain ⟨default, formals, hdefault, hformals, rfl⟩ := exists_of_map₂_eq_ok h
    refine forall_mem_cons.mpr ⟨?_, lexical_formals hscope hrest hformals⟩
    simp only [Formal.isLexical, Bool.and_eq_true]
    exact ⟨⟨isName_escape_of_isPlainName hreceiver.1.1, hmarker⟩,
      lexical_defaultCode hscope hreceiver.2 hdefault⟩

/-! ## Assignments -/

omit hscope in
theorem startsPlain_targets {targets : List Declaration}
    (hwf : ∀ d ∈ targets, Declaration.isWellFormed d)
    (h : targets.mapM (targetCode scope) = .ok codes) :
    (∀ code ∈ codes, code.startsPlain) ∧ codes.length = targets.length := by
  induction targets generalizing codes with
  | nil =>
    cases h
    exact ⟨forall_mem_nil _, rfl⟩
  | cons d targets ih =>
    obtain ⟨hd, htargets⟩ := forall_mem_cons.mp hwf
    rw [mapM_cons] at h
    obtain ⟨code, rest, hcode, hrest, rfl⟩ := exists_of_map₂_eq_ok h
    obtain ⟨hplain, hlength⟩ := ih htargets hrest
    exact ⟨forall_mem_cons.mpr ⟨(leads_target hd hcode).startsPlain, hplain⟩, by simp [hlength]⟩

omit hscope in
theorem lexical_augment {op : Operator} {value : Code} (hvalue : value.isLexical)
    {targets : List Code} (h : Code.areLexical targets) :
    Code.areLexical (augment op value targets) := by
  fun_induction augment op value targets with
  | case1 => rfl
  | case2 target => simp_all [Code.areLexical, Code.isLexical, Code.restIsLexical]
  | case3 target rest hrest ih => simp_all [Code.areLexical]

/-- The parts of a well-formed assignment.  There is a first target, and it starts with no word of
blocks. -/
theorem lexical_assignmentParts (hwf : a.isWellFormed) {targets values : List Code}
    (h : assignmentParts scope a = .ok (targets, type, values)) :
    ∃ first rest, targets = first :: rest ∧ first.startsPlain ∧
      Code.areLexical targets ∧ (∀ t ∈ type, TypeName.isLexical t) ∧
      Code.areLexical values := by
  simp only [Assignment.isWellFormed, Bool.and_eq_true, all_eq_true] at hwf
  obtain ⟨⟨htakes, htargets⟩, hvalue⟩ := hwf
  obtain ⟨-, hvalue⟩ := Expression.of_isWellFormedList hvalue
  obtain ⟨found, hfound, h⟩ := exists_of_bind_eq_ok h
  have hlexical := (holds_targets htargets hfound).lexical hscope
  obtain ⟨hplain, hlength⟩ := startsPlain_targets htargets hfound
  obtain ⟨first, rest, rfl⟩ : ∃ first rest, found = first :: rest := by
    have hsome : a.targets.length ≠ 0 := by
      cases hop : a.op with
      | plain => simpa [hop, AssignOp.takes] using htakes
      | augmented op =>
        have hone : a.targets.length = 1 := by simpa [hop, AssignOp.takes] using htakes
        omega
    exact exists_cons_of_length_pos (by omega)
  have hstart := hplain first mem_cons_self
  split at h
  · obtain ⟨type', codes, htype, hcodes, heq⟩ := exists_of_map₂_eq_ok h
    cases heq
    exact ⟨first, rest, rfl, hstart, hlexical, lexical_targetType htargets htype,
      (holds_expressions hvalue hcodes).lexical hscope⟩
  · split at h
    · cases h
    · obtain ⟨value, hcode, heq⟩ := exists_of_map_eq_ok h
      cases heq
      exact ⟨first, rest, rfl, hstart, hlexical, by simp,
        lexical_augment ((holds_augmentedValue hvalue hcode).lexical hscope) hlexical⟩

omit hscope in
/-- The names that an assignment declares global are names of its targets. -/
theorem isName_globalTargets (hwf : a.isWellFormed) {p p' : Progress} {declared : List String}
    (h : globalTargets scope a p = .ok declared p') : ∀ name ∈ declared, isName name := by
  simp only [Assignment.isWellFormed, Bool.and_eq_true, all_eq_true] at hwf
  have hplain : ∀ name ∈ plainTargets a, isName (escape name) := by
    intro name hname
    obtain ⟨d, hd, rfl⟩ := mem_map.mp hname
    have htarget := hwf.1.2 d (mem_of_mem_filter hd)
    simp only [Declaration.isWellFormed, Bool.and_eq_true] at htarget
    exact isName_escape_of_isPlainName htarget.1.1
  unfold globalTargets at h
  split at h
  · cases h
    exact forall_mem_nil _
  · split at h
    · cases h
      intro name hname
      obtain ⟨source, hsource, rfl⟩ := mem_map.mp hname
      exact hplain source (mem_of_mem_filter hsource)
    · cases h
      exact forall_mem_nil _

theorem tidy_assignment (hwf : a.isWellFormed) {p p' : Progress} {items : List Item}
    (h : assignment scope a p = .ok items p') : Item.AreTidy items [] := by
  obtain ⟨targets, type, values, declared, hparts, hdeclared, rfl⟩ := exists_of_assignment h
  obtain ⟨first, rest, rfl, hstart, htargets, htype, hvalues⟩ :=
    lexical_assignmentParts hscope hwf hparts
  have hassign (isGlobal : Bool) : Item.AreTidy [.assign isGlobal (first :: rest) type values] [] :=
    Item.areTidy_assign htargets hstart htype hvalues
  have hglobals := Item.areTidy_globals (isName_globalTargets hwf hdeclared)
  unfold storeItems
  split
  · exact hassign false
  · split
    · exact hassign true
    · exact hglobals.laid.append_tidy (hassign false)

/-! ## Statements -/

theorem lexical_returnValues {value : Option (List Expression)}
    (hwf : value.all Expression.isWellFormedList) (h : returnValues scope value = .ok codes) :
    Code.areLexical codes := by
  unfold returnValues at h
  split at h
  · exact (holds_expressions (Expression.of_isWellFormedList hwf).2 h).lexical hscope
  · split at h
    · rename_i receiver hreceiver
      cases h
      split
      · simp [Code.areLexical, lexical_nameCode (isWord_receiver hscope receiver hreceiver)]
      · rfl
    · cases h
      rfl

/-- Some expressions on a line of their own. -/
theorem tidy_expressions {list : List Expression} (hwf : Expression.isWellFormedList list)
    (h : expressions scope list = .ok codes) : Item.AreTidy [.expressions codes] [] := by
  obtain ⟨hne, hall⟩ := Expression.of_isWellFormedList hwf
  have hlexical := (holds_expressions hall h).lexical hscope
  cases list with
  | nil => exact absurd rfl hne
  | cons e list =>
    obtain ⟨code, rest, hcode, -, rfl⟩ := exists_of_map₂_eq_ok h
    have hstart := (leads_expression (Bool.and_eq_true_iff.mp hall).1 hcode).startsPlain
    exact Item.areTidy_expressions hlexical hstart

end Statements

mutual

/-- The items of a well-formed statement are laid out, open no record and end with a line of text.
-/
theorem tidy_statement {scope : Scope} (hscope : scope.isLexical) :
    ∀ {s : Statement} {p p' : Progress} {items : List Item}, s.isWellFormed →
    statement scope s p = .ok items p' → Item.AreTidy items []
  | .assign _, _, _, _, hwf, h => tidy_assignment hscope hwf h
  | .superCall call, _, _, _, hwf, h => by
    obtain ⟨code, hcode, h⟩ := exists_of_lift_bind h
    cases h
    have hcall := leads_superCall hwf hcode
    exact Item.areTidy_expressions (hcall.holds.single.lexical hscope) hcall.startsPlain
  | .returns _ _, _, _, _, hwf, h => by
    obtain ⟨codes, hcodes, h⟩ := exists_of_lift_bind h
    cases h
    exact Item.areTidy_returns (lexical_returnValues hscope hwf hcodes)
  | .pass, _, _, _, _, h => by
    cases h
    exact Item.areTidy_expressions rfl rfl
  | .breaks, _, _, _, _, h => by
    cases h
    exact Item.areTidy_breaks
  | .continues, _, _, _, _, h => by
    cases h
    exact Item.areTidy_continues
  | .expressions _, _, _, _, hwf, h => by
    obtain ⟨codes, hcodes, h⟩ := exists_of_lift_bind h
    cases h
    exact tidy_expressions hscope (Bool.and_eq_true_iff.mp hwf).1 hcodes
  | .function ⟨_, _, _, body, _⟩, _, _, _, hwf, h => by
    simp only [Statement.isWellFormed, FunctionDef.isWellFormed, Bool.and_eq_true,
      all_eq_true] at hwf
    obtain ⟨⟨⟨hname, hparameters⟩, hreturn⟩, hbody⟩ := hwf
    obtain ⟨formals, returns, inner, hformals, hreturns, hinner, rfl⟩ := exists_of_function h
    have hword := isName_escape_of_isPlainName hname
    have hall := lexical_formals hscope hparameters hformals
    exact Item.areTidy_function
      ⟨isPrintable_of_isName hword, hall, lexical_hintType hreturn hreturns⟩
      (laid_block (isLexical_ofFunction hscope) hbody hinner)
  | .classDef _, _, _, _, hwf, _ => nomatch hwf
  | .conditional ⟨_, body, otherwise, _⟩, _, _, _, hwf, h => by
    simp only [Statement.isWellFormed, Conditional.isWellFormed, Bool.and_eq_true] at hwf
    obtain ⟨⟨hcondition, hbody⟩, hotherwise⟩ := hwf
    obtain ⟨code, inner, mid, branches, hcode, hinner, hbranches, rfl⟩ := exists_of_branches h
    exact Item.areTidy_conditional ((holds_expression hcondition hcode).lexical hscope)
      (laid_block hscope hbody hinner) (laid_alternative hscope hotherwise hbranches)
  | .forLoop target _ body _, _, _, _, hwf, h => by
    simp only [Statement.isWellFormed, Bool.and_eq_true] at hwf
    obtain ⟨⟨htarget, hiterable⟩, hbody⟩ := hwf
    obtain ⟨code, inner, hcode, hinner, rfl⟩ := exists_of_block h
    exact Item.areTidy_forLoop (isName_escape_of_isPlainName htarget)
      ((holds_iterableCode (Expression.of_isWellFormedList hiterable).2 hcode).lexical hscope)
      (laid_block (isLexical_ofLoop hscope _) hbody hinner)
  | .whileLoop _ body _, _, _, _, hwf, h => by
    obtain ⟨hcondition, hbody⟩ := Bool.and_eq_true_iff.mp hwf
    obtain ⟨code, inner, hcode, hinner, rfl⟩ := exists_of_block h
    exact Item.areTidy_whileLoop ((holds_expression hcondition hcode).lexical hscope)
      (laid_block (isLexical_ofLoop hscope _) hbody hinner)

theorem laid_block {scope : Scope} (hscope : scope.isLexical) :
    ∀ {body : List Statement} {p p' : Progress} {items : List Item},
    Statement.areWellFormed body → block scope body p = .ok items p' → Item.AreLaid items []
  | [], _, _, _, _, h => by
    cases h
    exact Item.areLaid_nil
  | first :: rest, _, _, _, hwf, h => by
    obtain ⟨hfirst, hrest⟩ := Bool.and_eq_true_iff.mp hwf
    obtain ⟨items, items', mid, hitems, hitems', rfl⟩ := exists_of_block_cons h
    exact (tidy_statement hscope hfirst hitems).laid.append (laid_block hscope hrest hitems')

theorem laid_alternative {scope : Scope} (hscope : scope.isLexical) :
    ∀ {otherwise : Otherwise} {p p' : Progress} {alternatives : Alternative},
    otherwise.isWellFormed → alternative scope otherwise p = .ok alternatives p' →
    alternatives.IsLaid
  | .nothing, _, _, _, _, h => by
    cases h
    exact Alternative.isLaid_nothing
  | .elseIf ⟨_, body, otherwise, _⟩, _, _, _, hwf, h => by
    simp only [Otherwise.isWellFormed, Conditional.isWellFormed, Bool.and_eq_true] at hwf
    obtain ⟨⟨hcondition, hbody⟩, hotherwise⟩ := hwf
    obtain ⟨code, inner, mid, branches, hcode, hinner, hbranches, rfl⟩ := exists_of_branches h
    exact Alternative.isLaid_branch ((holds_expression hcondition hcode).lexical hscope)
      (laid_block hscope hbody hinner) (laid_alternative hscope hotherwise hbranches)
  | .block body, _, _, _, hwf, h => by
    obtain ⟨inner, mid, hinner, h⟩ := exists_of_step_bind h
    cases h
    exact Alternative.isLaid_block (laid_block hscope hwf hinner)

end

/-! ## Classes -/

section Classes

variable {scope : Scope} {l : Layout} {p p' : Progress} {items : List Item}

theorem startsPlain_methodName : StartsPlain methodName.toList :=
  startsPlain_of_isName (by decide) (by decide)

section Items

variable (hl : l.IsLexical)

include hl

theorem lexical_marker : l.marker.isLexical := hl.name

theorem lexical_receiver : (typed "self" l.marker).isLexical := by
  have hname : isName "self" := by decide
  simp [typed, Formal.isLexical, hname, lexical_marker hl]

/-- The function that reads an attribute: two conditions, and an error behind them. -/
theorem tidy_readAttribute : Item.AreTidy [readAttribute l] [] := by
  have hfield : Item.AreTidy [.conditional hasFieldCode
      [.returns [callOf "getfield" [selfCode, .name "name"]]] .nothing] [] :=
    Item.areTidy_conditional (by decide) (Item.areTidy_returns (by decide)).laid
      Alternative.isLaid_nothing
  have htable : Item.AreTidy [.assign false [.name "attributes"] none [tableCode]] [] :=
    Item.areTidy_assign (by decide) (by decide) (by simp) (by decide)
  have hkey : Item.AreTidy [.conditional (callOf "haskey" [.name "attributes", .name "name"])
      [.returns [.subscript (.name "attributes") [.name "name"]]] .nothing] [] :=
    Item.areTidy_conditional (by decide) (Item.areTidy_returns (by decide)).laid
      Alternative.isLaid_nothing
  have herror : Item.AreTidy
    [.expressions [callOf "error" [.str [.embedded (callOf "typeof" [selfCode]),
      .literal " has no attribute ", .embedded (.name "name")]]]] [] :=
    Item.areTidy_expressions (by decide) (by decide)
  have hformals : ∀ f ∈ [typed "self" l.marker, typed "name" (.named "Symbol")], f.isLexical :=
    forall_mem_cons.mpr ⟨lexical_receiver hl, by decide⟩
  have hname : isPrintable "Base.getproperty" := by decide
  exact Item.areTidy_function ⟨hname, hformals, nofun⟩
    (hfield.laid.append (htable.laid.append (hkey.laid.append herror.laid)))

/-- The function that writes an attribute: a condition, and the table behind it. -/
theorem tidy_writeAttribute : Item.AreTidy [writeAttribute l] [] := by
  have hfield : Item.AreTidy [.conditional hasFieldCode
      [.returns [callOf "setfield!" [selfCode, .name "name", convertedCode]]] .nothing] [] :=
    Item.areTidy_conditional (by decide) (Item.areTidy_returns (by decide)).laid
      Alternative.isLaid_nothing
  have htable : Item.AreTidy
      [.assign false [.subscript tableCode [.name "name"]] none [.name "value"]] [] :=
    Item.areTidy_assign (by decide) (by decide) (by simp) (by decide)
  have hvalue : Item.AreTidy [.returns [.name "value"]] [] := Item.areTidy_returns (by decide)
  have hformals : ∀ f ∈ [typed "self" l.marker, typed "name" (.named "Symbol"),
    .plain "value" none none],
      f.isLexical :=
    forall_mem_cons.mpr ⟨lexical_receiver hl, by decide⟩
  have hname : isPrintable "Base.setproperty!" := by decide
  exact Item.areTidy_function ⟨hname, hformals, nofun⟩
    (hfield.laid.append (htable.laid.append hvalue.laid))

/-- The default initializer is tidy. -/
theorem tidy_defaultInitializer : Item.AreTidy (defaultInitializer l) [] := by
  have hself : Item.AreTidy [.returns [selfCode]] [] := Item.areTidy_returns (by decide)
  have hinit : Formal.isLexical (.tag initializerName) := by decide
  have hnames : isPrintable staticName ∧ isPrintable methodName := by decide
  have hstatic : Item.AreTidy [.function
      ⟨staticName, [.tag l.name, .tag initializerName, typed "self" l.marker], none⟩
      [.returns [selfCode]]] [] := by
    have hclass : (Formal.tag l.name).isLexical := hl.name
    refine Item.areTidy_function ⟨hnames.1, ?_, nofun⟩ hself.laid
    simp [hclass, hinit, lexical_receiver hl]
  have hdynamic : Item.AreTidy
    [.equation ⟨methodName, [.tag initializerName, typed "self" l.marker], none⟩
      (.staticCall l.name initializerName [selfCode])] [] := by
    refine Item.areTidy_equation ⟨hnames.2, ?_, nofun⟩ startsPlain_methodName ?_
    · simp [hinit, lexical_receiver hl]
    · have hcode : isName initializerName ∧ Code.areLexical [selfCode] := by decide
      simp [Code.isLexical, hl.name, hcode]
  exact hstatic.laid.append_tidy (Item.areLaid_blank.append_tidy hdynamic)

/-- What every class has: its types, the functions that read and write attributes, and an
initializer if there is no other.  The only record is that of the class. -/
theorem tidy_classItems : Item.AreTidy (classItems l) [Item.recordLine l.name l.marker] := by
  have hhead : Item.AreTidy [.abstractType l.marker l.superMarker] [] := by
    refine Item.areTidy_abstractType (lexical_marker hl) fun t ht => ?_
    obtain ⟨s, hs, rfl⟩ := Option.map_eq_some_iff.mp ht
    exact hl.superclass s hs
  have hrecord : Item.AreTidy
      [.record l.name l.marker (l.fields.map fun field => (field.name, field.type))]
      [Item.recordLine l.name l.marker] := by
    refine Item.areTidy_record hl.name (escape_not_mem_blockWords hl.className)
      (lexical_marker hl) ?_
    intro field hfield
    obtain ⟨source, hsource, rfl⟩ := mem_map.mp hfield
    obtain ⟨hname, hplain, htype⟩ := hl.fields source hsource
    exact ⟨hname, hplain, htype⟩
  have hfunctions : Item.AreTidy ([readAttribute l, .blank] ++ [writeAttribute l]) [] :=
    ((tidy_readAttribute hl).laid.append Item.areLaid_blank).append_tidy (tidy_writeAttribute hl)
  have htypes : Item.AreTidy [.abstractType l.marker l.superMarker, .blank,
      .record l.name l.marker (l.fields.map fun field => (field.name, field.type)), .blank,
      readAttribute l, .blank, writeAttribute l] [Item.recordLine l.name l.marker] :=
    hhead.laid.append_tidy (Item.areLaid_blank.append_tidy (hrecord.laid.append_tidy
      (Item.areLaid_blank.append_tidy hfunctions)))
  unfold classItems
  split
  · exact htypes.laid.append_tidy (Item.areLaid_blank.append_tidy (tidy_defaultInitializer hl))
  · rw [append_nil]
    exact htypes

/-- The items that make a method callable are tidy. -/
theorem tidy_dispatchItems (f : FunctionDef) {name : String}
    (hparameters : ∀ p ∈ f.parameters, Parameter.isWellFormed p) (hname : isName name)
    (hformals : ∀ f ∈ formals, Formal.isLexical f) {front : List Item} {records : List String}
    (hfront : Item.AreTidy front records) :
    Item.AreTidy (front ++ dispatchItems l f name formals) records := by
  have harguments : Code.areLexical (f.parameters.map fun p => nameCode p.name) := by
    generalize f.parameters = parameters at hparameters
    induction parameters with
    | nil => rfl
    | cons p parameters ih =>
      obtain ⟨hp, hrest⟩ := forall_mem_cons.mp hparameters
      simp only [Parameter.isWellFormed, Bool.and_eq_true] at hp
      simp [Code.areLexical, lexical_nameCode (isWord_of_isPlainName hp.1.1), ih hrest]
  have hmethod : isPrintable methodName := by decide
  unfold dispatchItems
  split
  · rw [append_nil]
    exact hfront
  · have hequation : Item.AreTidy [.equation ⟨methodName, .tag name :: formals, none⟩
        (.staticCall l.name name (f.parameters.map fun p => nameCode p.name))] [] := by
      refine Item.areTidy_equation ⟨hmethod, ?_, ?_⟩ startsPlain_methodName ?_
      · exact forall_mem_cons.mpr ⟨hname, hformals⟩
      · rintro _ ⟨⟩
      · simp [Code.isLexical, hl.name, hname, harguments]
    have hall := hfront.laid.append_tidy (Item.areLaid_blank.append_tidy hequation)
    simpa using hall

end Items

theorem laid_finalReturn (hparameters : ∀ p ∈ f.parameters, Parameter.isWellFormed p) :
    Item.AreLaid (finalReturn f) [] := by
  unfold finalReturn
  split
  · rename_i receiver hreceiver
    have hword := isWord_of_isPlainName (isPlainName_receiver hparameters hreceiver)
    split
    · refine (Item.areTidy_returns ?_).laid
      simp [Code.areLexical, lexical_nameCode hword]
    · exact Item.areLaid_nil
  · exact Item.areLaid_nil

/-- A method has a lexical signature and name. -/
theorem lexical_methodHead (hscope : scope.isLexical) (hl : l.IsLexical) (hf : f.isWellFormed)
    {signature : Signature} (h : methodHead scope l f = .ok (signature, formals)) :
    signature.IsLexical ∧ (∀ f ∈ formals, Formal.isLexical f) ∧
      isName (memberName f.name l.className) := by
  obtain ⟨name, parameters, returnHint, body, span⟩ := f
  simp only [FunctionDef.isWellFormed, Bool.and_eq_true, all_eq_true] at hf
  obtain ⟨⟨⟨hname, hparameters⟩, hreturn⟩, -⟩ := hf
  have hmember : isName (memberName name l.className) :=
    isName_memberName (isWord_of_isPlainName hname)
      (by simpa using isWord_of_isPlainName hl.className)
  have hstatic : isPrintable staticName := by decide
  obtain ⟨hfound, returns, hreturns, rfl⟩ := exists_of_methodHead h
  have hformals := lexical_methodFormals hscope (lexical_marker hl) hparameters hfound
  have hall : ∀ f ∈ .tag l.name :: .tag (memberName name l.className) :: formals,
      Formal.isLexical f :=
    forall_mem_cons.mpr ⟨hl.name, forall_mem_cons.mpr ⟨hmember, hformals⟩⟩
  split at hreturns
  · cases hreturns
    exact ⟨⟨hstatic, hall, nofun⟩, hformals, hmember⟩
  · exact ⟨⟨hstatic, hall, lexical_hintType hreturn hreturns⟩, hformals, hmember⟩

/-- The methods of a class, behind what every class has. -/
theorem tidy_methods (hscope : scope.isLexical) (hl : l.IsLexical) {body : List Statement}
    (hwf : Statement.areWellFormed body) {front : List Item} {records : List String}
    (hfront : Item.AreTidy front records) (h : methods scope l body p = .ok items p') :
    Item.AreTidy (front ++ items) records := by
  induction body generalizing p items front with
  | nil =>
    cases h
    rw [append_nil]
    exact hfront
  | cons first rest ih =>
    obtain ⟨hfirst, hrest⟩ := Bool.and_eq_true_iff.mp hwf
    cases first with
    | function f =>
      obtain ⟨name, parameters, returnHint, body, span⟩ := f
      obtain ⟨⟨signature, formals⟩, hhead, h⟩ := exists_of_lift_bind h
      obtain ⟨inner, mid, hinner, h⟩ := exists_of_step_bind h
      obtain ⟨more, mid', hmore, h⟩ := exists_of_step_bind h
      cases h
      have hf : FunctionDef.isWellFormed ⟨name, parameters, returnHint, body, span⟩ := hfirst
      obtain ⟨hsignature, hformals, hname⟩ := lexical_methodHead hscope hl hf hhead
      simp only [FunctionDef.isWellFormed, Bool.and_eq_true, all_eq_true] at hf
      have hparameters := hf.1.1.2
      have hblock := laid_block (isLexical_ofMethod hscope hl.className hparameters) hf.2 hinner
      have hreturn : Item.AreLaid (finalReturn ⟨name, parameters, returnHint, body, span⟩) [] :=
        laid_finalReturn hparameters
      have hfunction := Item.areTidy_function hsignature (hblock.append hreturn)
      have hmethod := hfront.laid.append_tidy (Item.areLaid_blank.append_tidy hfunction)
      simp only [append_nil] at hmethod
      have hdispatch := tidy_dispatchItems hl ⟨name, parameters, returnHint, body, span⟩ hparameters
        hname hformals hmethod
      simpa using ih hrest hdispatch hmore
    | _ => exact ih hrest hfront h

/-- The items of a well-formed class open one record, that of the class. -/
theorem tidy_classDef (hscope : scope.isLexical) (hlayouts : ∀ l ∈ scope.layouts, l.IsLexical)
    {c : ClassDef} (hc : c.WellFormed) (h : statement scope (.classDef c) p = .ok items p') :
    Item.AreTidy items [Item.recordLine (escape c.name) (.marker (escape c.name))] := by
  obtain ⟨l, mid, more, hl, hname, hmore, rfl⟩ := exists_of_classDef h
  have hlexical := hlayouts l hl
  rw [← hname]
  exact tidy_methods hscope hlexical hc.body (tidy_classItems hlexical) hmore

end Classes

/-! ## Programs -/

/-- The line that opens the record of a class. -/
def classLine (c : ClassDef) : String := Item.recordLine (escape c.name) (.marker (escape c.name))

section Programs

variable {scope : Scope} {p p' : Progress} {source : Program} {items : List Item}

/-- The items of the statements of a program open the records of its classes, in order. -/
theorem tidy_statements (hscope : scope.isLexical) (hlayouts : ∀ l ∈ scope.layouts, l.IsLexical)
    (hwf : ∀ s ∈ source, s.isWellFormed ∨ ∃ c, s = .classDef c ∧ c.WellFormed) (hne : source ≠ [])
    (h : statements scope source p = .ok items p') :
    Item.AreTidy items ((source.filterMap Statement.class?).map classLine) := by
  induction source generalizing p items with
  | nil => exact absurd rfl hne
  | cons first rest ih =>
    obtain ⟨hfirst, hrest⟩ := forall_mem_cons.mp hwf
    obtain ⟨inner, mid, hinner, h⟩ := exists_of_step_bind h
    obtain ⟨more, mid', hmore, h⟩ := exists_of_step_bind h
    cases h
    have htidy : Item.AreTidy inner (([first].filterMap Statement.class?).map classLine) := by
      rcases hfirst with hstatement | ⟨c, rfl, hc⟩
      · have hnone : first.class? = none := by
          cases first with
          | classDef c => cases hstatement
          | _ => rfl
        rw [filterMap_cons_none hnone]
        exact tidy_statement hscope hstatement hinner
      · exact tidy_classDef hscope hlayouts hc hinner
    by_cases hlast : rest = []
    · subst hlast
      cases hmore
      simpa using htidy
    · have hgap : Item.AreLaid
          (if first.isDefinition && !rest.isEmpty then [.blank] else []) [] := by
        split
        · exact Item.areLaid_blank
        · exact Item.areLaid_nil
      have hall := (htidy.laid.append hgap).append_tidy (ih hrest hlast hmore)
      have hclasses : (first :: rest).filterMap Statement.class? =
          [first].filterMap Statement.class? ++ rest.filterMap Statement.class? := by
        rw [← filterMap_append]
        rfl
      rw [hclasses, map_append]
      simpa using hall

/-- The line that imports the statistics library, if it is used. -/
def importLines (used : Bool) : List String := if used then ["using Statistics"] else []

theorem laid_importItems (items : List Item) :
    Item.AreLaid (importItems items)
      (importLines ((Item.allParts items).any Code.isStatistic)) := by
  have hlibrary : isName "Statistics" := by decide
  unfold importItems importLines
  split
  · exact (Item.areTidy_library hlibrary).laid.append Item.areLaid_blank
  · exact Item.areLaid_nil

/-- A method of lists, whose text is fixed. -/
theorem tidy_shadowedItem {method : String × String} (h : method ∈ listMethods) :
    Item.AreTidy [shadowedItem method] [] := by
  have hnames : ∀ method ∈ listMethods, isName method.1 ∧ isName method.2 := by decide
  have hmethod : isPrintable methodName := by decide
  obtain ⟨hsource, htarget⟩ := hnames method h
  have hsignature : Signature.IsLexical
      ⟨methodName,
        [.tag method.1, typed "self" (.named "AbstractVector"), .remaining "args"], none⟩ :=
    ⟨hmethod, forall_mem_cons.mpr ⟨hsource, by decide⟩, nofun⟩
  have hvalue : isPrintable (callOf method.2 [selfCode, .spread (.name "args")]).text := by
    have harguments : isPrintable (commas ["self", "args" ++ "..."]) := by decide
    simp only [callOf, selfCode, Code.text, Code.texts, isPrintable_append, isPrintable_marks,
      isPrintable_of_isName htarget, harguments, Bool.and_self]
  refine Item.areTidy_line (fun _ => rfl) ?_ ?_
  · simp only [isPrintable_append, hsignature.isPrintable_text, hvalue, isPrintable_marks,
      Bool.and_self]
  · simp only [Signature.text, String.toList_append, append_assoc]
    exact startsPlain_methodName.append (head_mark (by decide) _)

theorem laid_shadowedItems (registry : ClassRegistry) :
    Item.AreLaid (shadowedItems registry) [] := by
  have hitems (methods : List (String × String)) (h : ∀ method ∈ methods, method ∈ listMethods) :
      Item.AreLaid (methods.map shadowedItem) [] := by
    induction methods with
    | nil => exact Item.areLaid_nil
    | cons method methods ih =>
      obtain ⟨hmethod, hrest⟩ := forall_mem_cons.mp h
      exact (tidy_shadowedItem hmethod).laid.append (ih hrest)
  unfold shadowedItems
  split
  · exact Item.areLaid_nil
  · have hshadowed := hitems (shadowedMethods registry) fun method hmethod =>
      mem_of_mem_filter hmethod
    exact hshadowed.append Item.areLaid_blank

/-- The items of a program.  Items before those of the statements come from calls and classes, so a
program without statements has none. -/
theorem tidy_programItems {registry : ClassRegistry} {layouts : List Layout}
    (hwf : source.WellFormed) (hclasses : registry.classes = source.filterMap Statement.class?)
    (hlayouts : Layout.all registry = .ok layouts)
    (h : statements { registry, layouts } source p = .ok items p') :
    source = [] ∧ importItems items ++ shadowedItems registry ++ items = [] ∧
      registry.classes = [] ∨
      Item.AreTidy (importItems items ++ shadowedItems registry ++ items)
        (importLines ((Item.allParts items).any Code.isStatistic) ++
          registry.classes.map classLine) := by
  have hclass : ∀ c ∈ registry.classes, c.WellFormed := by
    intro c hc
    rw [hclasses, mem_filterMap_class?] at hc
    rcases hwf.statements _ hc with hstatement | ⟨d, hd, hwf⟩
    · cases hstatement
    · cases hd
      exact hwf
  have hscope : Scope.isLexical { registry, layouts } := by
    simp only [Scope.isLexical, Bool.and_eq_true, all_eq_true]
    refine ⟨⟨fun c hc => ?_, rfl⟩, rfl⟩
    obtain ⟨hname, hsuperclass, -⟩ := hclass c (ClassRegistry.mem_classes.mpr hc)
    rw [Option.all_eq_true] at hsuperclass ⊢
    exact ⟨isWord_of_isPlainName hname, fun s hs => isWord_of_isPlainName (hsuperclass s hs)⟩
  by_cases hne : source = []
  · left
    subst hne
    cases h
    have hempty : registry.latestFirst = [] := by
      simpa [ClassRegistry.classes] using hclasses
    have hshadowed : shadowedMethods registry = [] := by
      simp [shadowedMethods, ClassRegistry.anyDeclares, hempty]
    exact ⟨rfl, by simp [importItems, shadowedItems, hshadowed, Item.allParts], hclasses⟩
  · right
    have hstatements :=
      tidy_statements hscope (Layout.isLexical_all hclass hlayouts) hwf.statements hne h
    have hfront := (laid_importItems items).append (laid_shadowedItems registry)
    rw [append_nil] at hfront
    rw [hclasses]
    exact hfront.append_tidy hstatements

end Programs

end Emit

end Offside
