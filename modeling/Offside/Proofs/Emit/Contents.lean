import Offside.Proofs.Emit.Dispatch
import Offside.Proofs.Emit.Lexical
import Offside.Proofs.Target.Members
import Offside.Proofs.Tree.Trace
import Offside.Proofs.Tree.WellFormedProgram

/-!
# Contents of emitted expressions

What the code of a well-formed expression is made of: the members that the expression accesses, in
their order, calls of methods that were found, calls of statistics functions, and other nodes, with
names of the emitted language; a name of a statistics function is a word of the expression; the
emitted forms of the calls by name in the expression are among its parts (`Holds`).  It starts with
no word of blocks (`Leads`).  The recursion of the emission is followed once, for this
(`leads_expression`).  What is said about all members, calls or names is then an induction over this
relation.
-/

namespace Offside.Emit

open Julia Target List

/-- The emitted form of a call by name. -/
def callCode (scope : Scope) : NamedCall → Except SemanticError Code
  | .plain call => primary scope ⟨.name call.name, [.call call.arguments], call.span⟩
  | .known call => functionCall scope call

/-- Whether a node is neither a name nor a member nor a call of a statistics function. -/
def isFree : Code → Bool
  | .name _ | .member _ _ | .statistic _ _ => false
  | _ => true

mutual

/-- The expression is made of what leaves the given trace. -/
inductive Holds (scope : Scope) : Trace → Code → Prop
  /-- A call of a method reaches one, if all superclasses are registered. -/
  | node {t : Trace} {code : Code} (hfree : isFree code = true) (h : HoldsAll scope t code.children)
      (hresolves : scope.registry.IsClosed → Resolves scope.registry code)
      (hnamed : scope.isLexical = true → code.isNamed = true) : Holds scope t code
  | name (words : List String) {text : String} (hwords : text ∈ statisticsFunctions → text ∈ words)
      (hnamed : scope.isLexical = true → isName text = true) :
      Holds scope { words := words.map .other } (.name text)
  | member {t : Trace} {base : Code} (h : Holds scope t base) {name : String}
    (hname : isPlainName name = true) :
      Holds scope (t ++ { names := [name], words := [.other name] }) (memberCode scope base name)
  /-- The receiver is no word of the call. -/
  | superCall {t : Trace} {owner method receiver : String} {arguments : List Code}
    (h : HoldsAll scope t arguments)
      (hresolves : scope.registry.IsClosed →
        Resolves scope.registry (.staticCall owner method (.name receiver :: arguments)))
      (hreceiver : scope.isLexical = true → isName receiver = true)
      (hnamed : scope.isLexical = true →
        (Code.staticCall owner method (.name receiver :: arguments)).isNamed = true) :
      Holds scope t (.staticCall owner method (.name receiver :: arguments))
  | statistic {t : Trace} {name function : String} (hform : callForm name = .statistics function)
      {arguments : List Code} (h : HoldsAll scope t arguments) :
      Holds scope ({ words := [.function name] } ++ t) (.statistic function arguments)
  | found {t : Trace} {code : Code} {call : NamedCall} (hcall : callCode scope call = .ok code)
      (h : Holds scope t code) : Holds scope ({ calls := [call] } ++ t) code
  /-- The order of the calls and of the words does not matter. -/
  | ordered {names : List String} {calls calls' : List NamedCall}
    {words words' : List Word} {code : Code}
      (hperm : calls.Perm calls') (hwords : Word.Within words words')
      (h : Holds scope ⟨names, calls, words⟩ code) : Holds scope ⟨names, calls', words'⟩ code

/-- The expressions are made of what leaves the given trace. -/
inductive HoldsAll (scope : Scope) : Trace → List Code → Prop
  | nil : HoldsAll scope {} []
  | cons {t t' : Trace} {code : Code} {codes : List Code} (h : Holds scope t code)
      (hrest : HoldsAll scope t' codes) : HoldsAll scope (t ++ t') (code :: codes)

end

variable {name : String}

section Parts

variable {scope : Scope} {t t' : Trace} {code : Code} {codes : List Code}

/-- The expression may also stand first on a line: it starts with no word of blocks. -/
structure Leads (scope : Scope) (t : Trace) (code : Code) : Prop where
  holds : Holds scope t code
  startsPlain : code.startsPlain = true

theorem Holds.single (h : Holds scope t code) : HoldsAll scope t [code] := by
  have hcons := HoldsAll.cons h .nil
  rwa [Trace.append_nil] at hcons

theorem Holds.pair {code' : Code} (h : Holds scope t code) (h' : Holds scope t' code') :
    HoldsAll scope (t ++ t') [code, code'] := .cons h h'.single

/-- A node that has no name, method or sign of its own. -/
def isUnnamed : Code → Bool
  | .name _ | .symbol _ | .spread _ | .sign _ _ | .broadcast _ _ | .statistic _ _ | .staticCall _ _
    _ | .methodCall _ _
  | .member _ _ => false
  | _ => true

theorem Holds.inner (hunnamed : isUnnamed code) (h : HoldsAll scope t code.children) :
    Holds scope t code := by
  cases code with
  | name | symbol | spread | sign | broadcast | statistic | staticCall | methodCall | member =>
    cases hunnamed
  | _ => exact .node rfl h (fun _ => trivial) fun _ => rfl

/-- A node without parts. -/
theorem holds_leaf (code : Code) (hunnamed : isUnnamed code) (h : code.children = []) :
    Holds scope {} code :=
  .inner hunnamed (h ▸ .nil)

/-- A node without parts in front of other expressions. -/
theorem HoldsAll.after (h : HoldsAll scope t codes) (hleaf : Holds scope {} code) :
    HoldsAll scope t (code :: codes) := .cons hleaf h

/-- A name that is no function of the statistics library. -/
theorem holds_name {text : String} (h : isName text) (hfree : text ∉ statisticsFunctions) :
    Holds scope {} (.name text) :=
  .name [] (fun hmem => absurd hmem hfree) fun _ => h

/-- The functions of the statistics library are spelled as they are written. -/
theorem mem_of_escape_mem (h : escape name ∈ statisticsFunctions) : escape name = name := by
  unfold escape at h ⊢
  split
  · rename_i hreserved
    rw [if_pos hreserved] at h
    have hlast : ∀ f ∈ statisticsFunctions, f.toList.getLast? ≠ some '_' := by decide
    exact absurd (by simp) (hlast _ h)
  · rfl

/-- A name that is spelled as it is written, among other words. -/
theorem leads_nameCode (h : isPlainName name) :
    Leads scope { words := [.other name] } (nameCode name) where
  holds := .name [name] (fun hmem => mem_singleton.mpr (mem_of_escape_mem hmem)) fun _ =>
    isName_escape_of_isPlainName h
  startsPlain := startsPlain_nameCode h

theorem Holds.groupIf (h : Holds scope t code) (needed : Bool) :
    Holds scope t (groupIf needed code) := by
  cases needed with
  | true => exact .inner rfl h.single
  | false => exact h

theorem Leads.groupIf (h : Leads scope t code) (needed : Bool) :
    Leads scope t (groupIf needed code) :=
  ⟨h.holds.groupIf needed, startsPlain_groupIf h.startsPlain⟩

/-- An integer is added to or taken from the value of an expression. -/
theorem Holds.plus (h : Holds scope t code) (op : Operator) (value : Int) :
    Holds scope t (.chain code [(op, .integer value)]) := by
  have hpair := h.pair (holds_leaf (.integer value) rfl rfl)
  rw [Trace.append_nil] at hpair
  exact .inner rfl hpair

theorem Holds.shift (h : Holds scope t code) (kind : Bound) : Holds scope t (kind.shift code) := by
  cases kind <;> exact h.plus _ _

theorem Holds.shiftLast (h : Holds scope t code) (descending : Bool) :
    Holds scope t (shiftLast descending code) := .inner rfl (h.plus _ 1).single

theorem holds_literal64? {value : Int} (h : literal64? value = some code) :
    Holds scope {} code := by
  unfold literal64? at h
  split at h
  · cases h
    exact holds_leaf _ rfl rfl
  · cases h

theorem holds_fromLast (distance : Nat) : Holds scope {} (fromLast distance) := by
  have hlast : Holds scope {} .lastIndex := holds_leaf _ rfl rfl
  unfold fromLast
  split
  · exact hlast
  · exact hlast.plus _ _

theorem holds_fold? {kind : Bound} {value : Int} (h : kind.fold? value = some code) :
    Holds scope {} code := by
  cases kind with
  | index =>
    rw [Bound.fold?] at h
    split at h
    · exact holds_literal64? h
    · cases h
      exact holds_fromLast _
  | upper =>
    rw [Bound.fold?] at h
    split at h
    · cases h
      exact holds_leaf _ rfl rfl
    · cases h
      exact holds_fromLast _
  | descendingUpper =>
    rw [Bound.fold?] at h
    split at h
    · exact holds_literal64? h
    · split at h
      · cases h
        exact (holds_leaf .lastIndex rfl rfl).plus _ _
      · cases h
        exact holds_fromLast _

theorem HoldsAll.spaced (h : HoldsAll scope t codes) : HoldsAll scope t (spaced codes) := by
  unfold Emit.spaced
  induction codes generalizing t with
  | nil => exact h
  | cons code rest ih =>
    cases rest with
    | nil => exact h
    | cons next rest =>
      cases h with
      | cons hfirst hrest => exact .cons hfirst ((ih hrest).after (holds_leaf _ rfl rfl))

theorem HoldsAll.joined (h : HoldsAll scope t codes) (op : Operator) :
    Holds scope t (joined op codes) := by
  cases codes with
  | nil => exact .inner rfl h
  | cons code rest =>
    have hmap : (rest.map fun code => (op, code)).map Prod.snd = rest :=
      (map_map ..).trans (map_id rest)
    exact .inner rfl
      (show HoldsAll scope t (code :: (rest.map fun code => (op, code)).map Prod.snd) from
      hmap.symm ▸ h)

/-- A call of a function of the given name. -/
theorem HoldsAll.call (h : HoldsAll scope t codes) {function : String} (hname : isName function)
    (hfree : function ∉ statisticsFunctions) : Holds scope t (.call (.name function) codes) :=
  .inner rfl (h.after (holds_name hname hfree))

/-- A word that no node is made of. -/
theorem Leads.beside (h : Leads scope (t ++ t') code) (name : String) :
    Leads scope (t ++ ({ words := [.other name] } ++ t')) code := by
  refine ⟨.ordered (.refl _) ⟨?_, ?_⟩ h.holds, h.startsPlain⟩
  · exact append_subset.mpr ⟨subset_append_left _ _, fun w hw =>
      mem_append_right _ (mem_cons_of_mem _ hw)⟩
  · intro w hw hstatistic
    rcases mem_append.mp hw with hw | hw
    · exact mem_append_left _ hw
    · rcases mem_cons.mp hw with rfl | hw
      · cases hstatistic
      · exact mem_append_right _ hw

/-- A call of a method holds its object and arguments. -/
theorem leads_methodCallCode (h : Holds scope t code) {method : String}
    (hmethod : isPlainName method) (hcodes : HoldsAll scope t' codes) :
    Leads scope (t ++ ({ words := [.other method] } ++ t'))
      (methodCallCode scope code method codes) := by
  unfold methodCallCode
  split
  · rename_i hdeclares
    have hcall : Holds scope (t ++ t')
        (.methodCall (memberName method scope.className) (code :: codes)) :=
      .node rfl (.cons h hcodes) (fun _ =>
        ⟨method, scope.className, rfl, .inr hdeclares⟩) fun hscope =>
        isName_memberName (isWord_of_isPlainName hmethod) (isWord_className hscope)
    exact Leads.beside ⟨hcall, rfl⟩ method
  · have hmethods : ∀ entry ∈ listMethods, isName entry.2 ∧ entry.2 ∉ statisticsFunctions ∧
        (Code.name entry.2).startsPlain := by decide
    cases hlist : listMethod? method with
    | none =>
      have hname : Leads scope _ (nameCode method) := leads_nameCode hmethod
      have hcall : Holds scope ({ words := [.other method] } ++ (t ++ t'))
          (.call (nameCode method) (code :: codes)) :=
        .inner rfl (.cons hname.holds (.cons h hcodes))
      exact ⟨.ordered (.refl _) (.of_perm perm_middle.symm) hcall, hname.startsPlain⟩
    | some function =>
      obtain ⟨hname, hfree, hstart⟩ := hmethods _ (mem_of_lookup hlist)
      exact Leads.beside ⟨(HoldsAll.cons h hcodes).call hname hfree, hstart⟩ method

end Parts

/-! ## Expressions -/

section Expressions

variable {scope : Scope}

/-- What accesses start from is made of accesses of the given members, and a class is registered. -/
def Root.Holds (scope : Scope) (t : Trace) : Root → Prop
  | .code base => Leads scope t base
  | .className name _ =>
    t = { words := [.other name] } ∧ scope.registry.contains name = true ∧ isPlainName name = true

theorem holds_ofName (hname : isPlainName name) (location : Location) :
    (Root.ofName scope name location).Holds scope { words := [.other name] } := by
  unfold Root.ofName
  split
  · rename_i hclass
    exact ⟨rfl, hclass, hname⟩
  · exact leads_nameCode hname

section Root

variable {t t' : Trace} {root : Root}

theorem Root.Holds.toCode (h : root.Holds scope t) : Leads scope t root.toCode := by
  cases root with
  | code base => exact h
  | className name location =>
    obtain ⟨rfl, -, hname⟩ := h
    exact leads_nameCode hname

/-- A call of what accesses start from.  A class is called for an object. -/
def Root.called : Root → List Code → Code
  | .code base, arguments => .call base arguments
  | .className name _, arguments =>
    .methodCall initializerName (.call (nameCode name) [] :: arguments)

/-- A call is emitted before what is accessed through its result. -/
theorem accesses_call (root : Root) (values : List Expression) (span : Span) (rest : List Trailer) :
    accesses scope root (.call ⟨values, span⟩ :: rest) =
      expressions scope values >>= fun arguments =>
        accesses scope (.code (root.called arguments)) rest := by
  cases root <;> rfl

theorem Root.Holds.called (h : root.Holds scope t) {arguments : List Code}
    (harguments : HoldsAll scope t' arguments) :
    Leads scope (t ++ t') (root.called arguments) := by
  cases root with
  | code base => exact ⟨.inner rfl (.cons h.holds harguments), h.startsPlain⟩
  | className name location =>
    obtain ⟨rfl, -, hname⟩ := h
    have hinstance : Emit.Holds scope _ (.call (nameCode name) []) :=
      .inner rfl (leads_nameCode hname).holds.single
    refine ⟨.node rfl (.cons hinstance harguments) (fun _ => ?_) fun _ => ?_, rfl⟩
    · exact ⟨initializerName, none, (memberName_initializerName none).symm, .inl rfl⟩
    · exact (by decide : isName initializerName)

end Root

variable {code : Code} {e : Expression} {values : List Expression} {parameters : List Parameter}

theorem leads_operand (he : ∀ code, expression scope e = .ok code → Leads scope e.trace code)
    (h : operand scope e = .ok code) : Leads scope e.trace code := by
  obtain ⟨tree, span⟩ := e
  obtain ⟨inner, hinner, rfl⟩ := exists_of_map_eq_ok h
  exact (he inner hinner).groupIf _

/-- One expression, where several may stand. -/
theorem Holds.of_single (h : Holds scope e.trace code) :
    Holds scope (Expression.allTrace [e]) code := by
  rwa [Expression.allTrace_singleton]

/-- A slice, from its bounds and its step. -/
theorem holds_rangeSlice {lower upper step : Option Expression}
    (hlower : ∀ e ∈ lower, ∀ (kind : Bound) (code : Code), bound scope kind e = .ok code →
      Holds scope e.trace code)
    (hupper : ∀ e ∈ upper, ∀ (kind : Bound) (code : Code), bound scope kind e = .ok code →
      Holds scope e.trace code)
    (hstep : ∀ e ∈ step, ∀ code : Code, expression scope e = .ok code → Holds scope e.trace code)
    (h : subscript scope (.range lower upper step) = .ok code) :
    Holds scope ⟨Expression.optionalMembers lower ++
        (Expression.optionalMembers step ++ Expression.optionalMembers upper),
      Expression.optionalCalls lower ++ Expression.optionalCalls upper ++
        Expression.optionalCalls step,
      Expression.optionalWords lower ++
        (Expression.optionalWords step ++ Expression.optionalWords upper)⟩ code := by
  have hend {limit : Option Expression} {code : Code} (hend : IsEnd scope limit code)
      (hlimit : ∀ e ∈ limit, ∀ (kind : Bound) (code : Code), bound scope kind e = .ok code →
        Holds scope e.trace code) :
      Holds scope (Expression.optionalTrace limit) code := by
    cases hend with
    | given h => exact hlimit _ rfl _ _ h
    | first => exact holds_leaf _ rfl rfl
    | last => exact holds_leaf _ rfl rfl
  rcases subscript_range_cases h with
    ⟨rfl, rfl, rfl, rfl⟩ | ⟨first, last, hfirst, hlast, ⟨rfl, rfl⟩ | ⟨e, rfl, inner, hinner, rfl⟩⟩
  · exact holds_leaf _ rfl rfl
  · have hpair := (hend hfirst hlower).pair (hend hlast hupper)
    exact .ordered (.of_eq (append_nil _).symm) (.of_perm (.refl _)) (.inner rfl hpair)
  · have hstride := (hstep e rfl inner hinner).pair (hend hlast hupper)
    refine .ordered ?_ (.of_perm (.refl _)) (.inner rfl (.cons (hend hfirst hlower) hstride))
    rw [append_assoc]
    exact perm_append_comm.append_left _

/-- No function is renamed to one of the statistics library. -/
theorem not_mem_statisticsFunctions {function : String} (h : callForm name = .rename function) :
    function ∉ statisticsFunctions := by
  have hform := forall_callForm (p := fun form => match form with
    | .rename function => decide (function ∉ statisticsFunctions)
    | _ => true) (by decide) rfl name
  rw [h] at hform
  exact of_decide_eq_true hform

/-- A call of a known function, from its arguments. -/
theorem leads_callForm {argumentsSpan span : Span} (hname : isPlainName name)
    (hmem : ∀ e ∈ values, (∀ code, expression scope e = .ok code → Leads scope e.trace code) ∧
      ∀ descending code, rangeLast scope descending e = .ok code → Holds scope e.trace code)
    (hvalues : ∀ codes, expressions scope values = .ok codes →
      HoldsAll scope (Expression.allTrace values) codes)
    (h : functionCall scope ⟨name, ⟨values, argumentsSpan⟩, span⟩ = .ok code) :
    Leads scope ⟨((callForm name).inTextOrder (Expression.eachMembers values)).flatten,
      Expression.allCalls values,
      .function name :: Expression.allWords values⟩ code := by
  -- only the function of a statistics call is a word of what is emitted
  suffices Leads scope ⟨((callForm name).inTextOrder (Expression.eachMembers values)).flatten,
      Expression.allCalls values,
        ((callForm name).statistic?.map fun _ => Word.function name).toList ++
        Expression.allWords values⟩ code by
    refine ⟨.ordered (.refl _) ⟨?_, ?_⟩ this.holds, this.startsPlain⟩
    · cases (callForm name).statistic? with
      | none => exact subset_cons_self _ _
      | some function => exact List.Subset.refl _
    · intro w hw hstatistic
      rcases mem_cons.mp hw with rfl | hw
      · obtain ⟨function, hfunction⟩ := Option.isSome_iff_exists.mp hstatistic
        rw [hfunction]
        exact mem_cons_self
      · exact mem_append_right _ hw
  rw [functionCall.eq_def] at h
  dsimp only at h
  split at h
  case h_1 hform =>
    obtain ⟨codes, hcodes, rfl⟩ := exists_of_map_eq_ok h
    rw [hform]
    exact ⟨(hvalues codes hcodes).spaced.call (by decide) (by decide), rfl⟩
  case h_2 hform =>
    rw [hform]
    split at h
    · obtain ⟨code, hcode, rfl⟩ := exists_of_map_eq_ok h
      have hpair :=
        ((hmem _ mem_cons_self).1 code hcode).holds.pair (holds_leaf (.integer 1) rfl rfl)
      exact ⟨hpair.call (by decide) (by decide), rfl⟩
    · cases h
  case h_3 hform =>
    rw [hform]
    split at h
    · obtain ⟨last, hlast, rfl⟩ := exists_of_map_eq_ok h
      have hstop := ((hmem _ mem_cons_self).2 _ last hlast).of_single.single
      exact ⟨.inner rfl (hstop.after (holds_leaf _ rfl rfl)), rfl⟩
    · obtain ⟨first, last, hfirst, hlast, rfl⟩ := exists_of_map₂_eq_ok h
      have hstart := leads_operand (hmem _ (by simp)).1 hfirst
      have hstop := ((hmem _ (by simp)).2 _ last hlast).of_single.single
      exact ⟨.inner rfl (.cons hstart.holds hstop), hstart.startsPlain⟩
    · -- the step is written in front of the end
      obtain ⟨first, hfirst, h⟩ := exists_of_bind_eq_ok h
      obtain ⟨step, last, hstep, hlast, rfl⟩ := exists_of_map₂_eq_ok h
      have hstart := leads_operand (hmem _ (by simp)).1 hfirst
      have hstride := (hmem _ (by simp)).1 step hstep
      have hstop := (hmem _ (by simp)).2 _ last hlast
      refine ⟨.ordered ?_ (.of_perm ?_)
        (.inner rfl (.cons hstart.holds (.cons hstride.holds hstop.of_single.single))),
        hstart.startsPlain⟩
      · exact (perm_append_comm_assoc ..).append_left _
      · exact (perm_append_comm_assoc ..).append_left _
    · cases h
  case h_4 hform =>
    rw [hform]
    split at h
    · obtain ⟨code, hcode, rfl⟩ := exists_of_map_eq_ok h
      have hvalue := ((hmem _ mem_cons_self).1 code hcode).holds.of_single.single
      exact ⟨(hvalue.after (holds_name (by decide) (by decide))).call (by decide) (by decide), rfl⟩
    · cases h
  case h_5 hform =>
    obtain ⟨codes, hcodes, rfl⟩ := exists_of_map_eq_ok h
    obtain ⟨hfunction, hword⟩ := of_callForm (.inl hform)
    have hfree := not_mem_statisticsFunctions hform
    rw [hform]
    exact ⟨(hvalues codes hcodes).call hfunction hfree, by simp [Code.startsPlain, hword]⟩
  case h_6 hform =>
    obtain ⟨codes, hcodes, rfl⟩ := exists_of_map_eq_ok h
    obtain ⟨hfunction, hword⟩ := of_callForm (.inr (.inl hform))
    rw [hform]
    exact ⟨.node rfl (hvalues codes hcodes) (fun _ => trivial) fun _ =>
      hfunction, by simp [Code.startsPlain, hword]⟩
  case h_7 hform =>
    obtain ⟨codes, hcodes, rfl⟩ := exists_of_map_eq_ok h
    have hcall := Holds.statistic hform (hvalues codes hcodes)
    have hword := (of_callForm (.inr (.inr hform))).2
    rw [hform]
    exact ⟨hcall, by simp [Code.startsPlain, hword]⟩
  case h_10 hform =>
    obtain ⟨codes, hcodes, rfl⟩ := exists_of_map_eq_ok h
    have hknown : ∀ f ∈ statisticsFunctions, callForm f ≠ .passThrough := by decide
    have hfree : escape name ∉ statisticsFunctions := fun hmem =>
      hknown _ hmem ((mem_of_escape_mem hmem).symm ▸ hform)
    rw [hform]
    exact ⟨(hvalues codes hcodes).call (isName_escape_of_isPlainName hname) hfree,
      startsPlain_nameCode hname⟩
  case h_8 hform =>
    split at h
    · cases h
    · obtain ⟨codes, hcodes, rfl⟩ := exists_of_map_eq_ok h
      rw [hform]
      exact ⟨.inner rfl ((hvalues codes hcodes).joined _).single, rfl⟩
  case h_9 hform =>
    rw [hform]
    split at h
    · obtain ⟨code, hcode, rfl⟩ := exists_of_map_eq_ok h
      have hvalue := (hmem _ mem_cons_self).1 code hcode
      exact Leads.groupIf ⟨hvalue.holds.of_single, hvalue.startsPlain⟩ _
    · cases h

mutual

/-- The code of a well-formed expression is made of what the expression holds. -/
theorem leads_expression : ∀ {e : Expression} {code : Code}, e.isWellFormed →
    expression scope e = .ok code → Leads scope e.trace code
  | ⟨_, _⟩, _, hwell, h => leads_operators hwell h

theorem holds_expressions :
    ∀ {es : List Expression} {codes : List Code}, Expression.areWellFormed es →
    expressions scope es = .ok codes → HoldsAll scope (Expression.allTrace es) codes
  | [], _, _, h => by
    cases h
    exact .nil
  | _ :: _, _, hwell, h => by
    obtain ⟨hfirst, hrest⟩ := Bool.and_eq_true_iff.mp hwell
    obtain ⟨code, codes, hcode, hcodes, rfl⟩ := exists_of_map₂_eq_ok h
    exact .cons (leads_expression hfirst hcode).holds (holds_expressions hrest hcodes)

/-- The code of an expression holds its parts, one case per operator. -/
theorem leads_operators :
    ∀ {e : Expr} {code : Code}, e.isWellFormed → operators scope e = .ok code →
    Leads scope e.trace code
  | .or _ _, _, hwell, h | .and _ _, _, hwell, h => by
    simp only [Expr.isWellFormed, Bool.and_eq_true] at hwell
    obtain ⟨code, codes, hcode, hcodes, rfl⟩ := exists_of_map₂_eq_ok h
    have hfirst := leads_operators hwell.1.1.2 hcode
    exact ⟨.inner rfl (.cons hfirst.holds (holds_operands hwell.2 hcodes)), hfirst.startsPlain⟩
  | .not _, _, hwell, h => by
    obtain ⟨code, hcode, rfl⟩ := exists_of_map_eq_ok h
    exact ⟨.inner rfl
      ((leads_operators (Bool.and_eq_true_iff.mp hwell).2 hcode).groupIf _).holds.single, rfl⟩
  | .sign _ _, _, hwell, h => by
    obtain ⟨code, hcode, rfl⟩ := exists_of_map_eq_ok h
    have hinner := (leads_operators (Bool.and_eq_true_iff.mp hwell).2 hcode).groupIf
    -- a sign in front of a sign is put in parentheses
    refine ⟨.node rfl (hinner _).holds.single (fun _ => trivial) fun _ => ?_, rfl⟩
    cases hsigned : code.startsSigned with
    | true => rfl
    | false => simp [Code.isNamed, groupIf, hsigned]
  | .compare _ _, _, hwell, h => by
    simp only [Expr.isWellFormed, Bool.and_eq_true] at hwell
    obtain ⟨code, codes, hcode, hcodes, rfl⟩ := exists_of_map₂_eq_ok h
    have hfirst := leads_operators hwell.1.1.2 hcode
    exact ⟨.inner rfl (.cons hfirst.holds (holds_comparisons hwell.2 hcodes)), hfirst.startsPlain⟩
  | .sum _ _, _, hwell, h => by
    simp only [Expr.isWellFormed, Bool.and_eq_true] at hwell
    obtain ⟨code, codes, hcode, hcodes, rfl⟩ := exists_of_map₂_eq_ok h
    have hfirst := (leads_operators hwell.1.1.2 hcode).groupIf
    exact ⟨.inner rfl (.cons (hfirst _).holds (holds_summands hwell.2 hcodes)),
      (hfirst _).startsPlain⟩
  | .product _ _, _, hwell, h => by
    simp only [Expr.isWellFormed, Bool.and_eq_true] at hwell
    obtain ⟨code, codes, hcode, hcodes, rfl⟩ := exists_of_map₂_eq_ok h
    have hfirst := leads_operators hwell.1.1.2 hcode
    exact ⟨.inner rfl (.cons hfirst.holds (holds_factors hwell.2 hcodes)), hfirst.startsPlain⟩
  | .power ⟨_, _, _⟩ _, _, hwell, h => by
    simp only [Expr.isWellFormed, Primary.isWellFormed, Bool.and_eq_true] at hwell
    obtain ⟨code, code', hcode, hcode', rfl⟩ := exists_of_map₂_eq_ok h
    have hbase := leads_primary hwell.1.1.1.1 hwell.1.1.1.2 hcode
    exact ⟨.inner rfl (hbase.holds.pair (leads_operators hwell.2 hcode').holds), hbase.startsPlain⟩
  | .primary ⟨_, _, _⟩, _, hwell, h => by
    simp only [Expr.isWellFormed, Primary.isWellFormed, Bool.and_eq_true] at hwell
    exact leads_primary hwell.1.1 hwell.1.2 h

theorem holds_operands :
    ∀ {op : Operator} {rank : Nat} {es : List Expr} {codes : List (Operator × Code)},
    Expr.areWellFormed rank es → operands scope op es = .ok codes →
    HoldsAll scope ⟨Expr.allMembers es, Expr.allCalls es, Expr.allWords es⟩ (codes.map Prod.snd)
  | _, _, [], _, _, h => by
    cases h
    exact .nil
  | _, _, _ :: _, _, hwell, h => by
    simp only [Expr.areWellFormed, Bool.and_eq_true] at hwell
    obtain ⟨code, codes, hcode, hcodes, rfl⟩ := exists_of_map₂_eq_ok h
    exact .cons (leads_operators hwell.1.2 hcode).holds (holds_operands hwell.2 hcodes)

theorem holds_comparisons : ∀ {es : List (Comparison × Expr)} {codes : List (Operator × Code)},
    Expr.comparedWellFormed es → comparisons scope es = .ok codes →
    HoldsAll scope ⟨Expr.comparisonMembers es, Expr.comparisonCalls es, Expr.comparisonWords es⟩
      (codes.map Prod.snd)
  | [], _, _, h => by
    cases h
    exact .nil
  | (_, _) :: _, _, hwell, h => by
    simp only [Expr.comparedWellFormed, Bool.and_eq_true] at hwell
    obtain ⟨code, codes, hcode, hcodes, rfl⟩ := exists_of_map₂_eq_ok h
    exact .cons (leads_operators hwell.1.2 hcode).holds (holds_comparisons hwell.2 hcodes)

theorem holds_summands :
    ∀ {joins : Bool} {es : List (SumOp × Expr)} {codes : List (Operator × Code)},
    Expr.addedWellFormed es → summands scope joins es = .ok codes →
    HoldsAll scope ⟨Expr.sumMembers es, Expr.sumCalls es, Expr.sumWords es⟩ (codes.map Prod.snd)
  | _, [], _, _, h => by
    cases h
    exact .nil
  | _, (_, _) :: _, _, hwell, h => by
    simp only [Expr.addedWellFormed, Bool.and_eq_true] at hwell
    obtain ⟨code, codes, hcode, hcodes, rfl⟩ := exists_of_map₂_eq_ok h
    exact .cons ((leads_operators hwell.1.2 hcode).holds.groupIf _) (holds_summands hwell.2 hcodes)

theorem holds_factors : ∀ {es : List (TermOp × Expr)} {codes : List (Operator × Code)},
    Expr.multipliedWellFormed es → factors scope es = .ok codes →
    HoldsAll scope ⟨Expr.productMembers es, Expr.productCalls es, Expr.productWords es⟩
      (codes.map Prod.snd)
  | [], _, _, h => by
    cases h
    exact .nil
  | (_, _) :: _, _, hwell, h => by
    simp only [Expr.multipliedWellFormed, Bool.and_eq_true] at hwell
    obtain ⟨code, codes, hcode, hcodes, rfl⟩ := exists_of_map₂_eq_ok h
    exact .cons (leads_operators hwell.1.2 hcode).holds (holds_factors hwell.2 hcodes)

theorem leads_primary : ∀ {p : Primary} {code : Code}, p.atom.isWellFormed →
    Trailer.areWellFormed p.trailers → primary scope p = .ok code → Leads scope p.trace code
  | ⟨.name name, .call ⟨values, argumentsSpan⟩ :: rest, span⟩, code, hname, hwell, h => by
    obtain ⟨hvalues, hrest⟩ := Bool.and_eq_true_iff.mp hwell
    have h := (accesses_call _ values argumentsSpan rest).symm.trans h
    obtain ⟨arguments, harguments, h⟩ := exists_of_bind_eq_ok h
    have hcalled := (holds_ofName hname span.start).called (holds_expressions hvalues harguments)
    have hcall : callCode scope (.plain ⟨name, ⟨values, argumentsSpan⟩, span⟩) =
        .ok ((Root.ofName scope name span.start).called arguments) := by
      refine (accesses_call _ values argumentsSpan []).trans ?_
      rw [harguments]
      rfl
    have hall := leads_accesses (.code _) ⟨.found hcall hcalled.holds, hcalled.startsPlain⟩ hrest h
    exact hall
  | ⟨.name _, [], span⟩, _, hname, hwell, h | ⟨.name _, .member _ _ :: _, span⟩, _, hname, hwell, h
  | ⟨.name _, .subscript _ :: _, span⟩, _, hname, hwell, h =>
    leads_accesses _ (holds_ofName hname span.start) hwell h
  | ⟨.boolean _, _, _⟩, _, hatom, hwell, h | ⟨.none, _, _⟩, _, hatom, hwell, h
  | ⟨.integer _, _, _⟩, _, hatom, hwell, h | ⟨.float _, _, _⟩, _, hatom, hwell, h
  | ⟨.str _, _, _⟩, _, hatom, hwell, h | ⟨.formatted _, _, _⟩, _, hatom, hwell, h
  | ⟨.group _, _, _⟩, _, hatom, hwell, h | ⟨.list _, _, _⟩, _, hatom, hwell, h
  | ⟨.library _, _, _⟩, _, hatom, hwell, h | ⟨.builtin _, _, _⟩, _, hatom, hwell, h
  | ⟨.super _, _, _⟩, _, hatom, hwell, h => by
    obtain ⟨base, hbase, h⟩ := exists_of_bind_eq_ok h
    exact leads_accesses (.code base) (leads_atomCode hatom hbase) hwell h

/-- The code of accesses is made of what they start from and of what they access. -/
theorem leads_accesses : ∀ (root : Root) {t : Trace} {trailers : List Trailer} {code : Code},
    root.Holds scope t → Trailer.areWellFormed trailers → accesses scope root trailers = .ok code →
    Leads scope (t ++ Trailer.allTrace trailers) code
  | _, t, [], _, hroot, _, h => by
    cases h
    have hcode := hroot.toCode
    rwa [← Trace.append_nil t] at hcode
  | .code base, t, .member _ _ :: .call ⟨_, _⟩ :: _, _, hroot, hwell, h => by
    simp only [Trailer.areWellFormed, Arguments.isWellFormed, Bool.and_eq_true] at hwell
    obtain ⟨arguments, harguments, h⟩ := exists_of_bind_eq_ok h
    have hcall := leads_methodCallCode hroot.holds hwell.1 (holds_expressions hwell.2.1 harguments)
    have hrest := leads_accesses (.code _) hcall hwell.2.2 h
    rwa [Trace.append_assoc] at hrest
  | .className name _, t, .member method _ :: .call ⟨values, _⟩ :: _, _, hroot, hwell, h => by
    simp only [Trailer.areWellFormed, Arguments.isWellFormed, Bool.and_eq_true] at hwell
    obtain ⟨target, htarget, h⟩ := exists_of_bind_eq_ok h
    obtain ⟨arguments, harguments, h⟩ := exists_of_bind_eq_ok h
    obtain ⟨rfl, hclass, hname⟩ := hroot
    have hcall : Holds scope ({} ++ Expression.allTrace values)
        (.staticCall target.1 target.2 arguments) :=
      .node rfl (holds_expressions hwell.2.1 harguments) (fun _ =>
        hasForm_staticTarget hclass htarget)
        fun hscope =>
          isNamed_staticTarget hscope (isWord_of_isPlainName hname) hwell.1 htarget arguments
    have hrest :=
      leads_accesses (.code _) ((Leads.beside ⟨hcall, rfl⟩ method).beside name) hwell.2.2 h
    exact hrest
  | .code base, t, [.member _ _], _, hroot, hwell, h
  | .code base, t, .member _ _ :: .member _ _ :: _, _, hroot, hwell, h
  | .code base, t, .member _ _ :: .subscript _ :: _, _, hroot, hwell, h => by
    obtain ⟨hname, hwell⟩ := Bool.and_eq_true_iff.mp hwell
    have hrest := leads_accesses (.code _) ⟨.member hroot.holds hname, hroot.startsPlain⟩ hwell h
    rwa [Trace.append_assoc] at hrest
  | .className _ _, _, [.member _ _], _, _, _, h => by cases h
  | .className _ _, _, .member _ _ :: .member _ _ :: _, _, _, _, h => by cases h
  | .className _ _, _, .member _ _ :: .subscript _ :: _, _, _, _, h => by cases h
  | root, t, .call ⟨values, span⟩ :: rest, _, hroot, hwell, h => by
    obtain ⟨hvalues, hwell⟩ := Bool.and_eq_true_iff.mp hwell
    rw [accesses_call] at h
    obtain ⟨arguments, harguments, h⟩ := exists_of_bind_eq_ok h
    have hrest :=
      leads_accesses (.code _) (hroot.called (holds_expressions hvalues harguments)) hwell h
    rwa [Trace.append_assoc] at hrest
  | root, t, .subscript _ :: _, _, hroot, hwell, h => by
    simp only [Trailer.areWellFormed, Bool.and_eq_true] at hwell
    obtain ⟨indices, hindices, h⟩ := exists_of_bind_eq_ok h
    have hsubscript : Holds scope _ (.subscript root.toCode indices) :=
      .inner rfl (.cons hroot.toCode.holds (holds_subscripts hwell.1.2 hindices))
    have hrest := leads_accesses (.code _) ⟨hsubscript, hroot.toCode.startsPlain⟩ hwell.2 h
    rwa [Trace.append_assoc] at hrest

theorem holds_subscripts : ∀ {slices : List Slice} {codes : List Code}, Slice.areWellFormed slices →
    subscripts scope slices = .ok codes →
    HoldsAll scope ⟨Slice.allMembers slices, Slice.allCalls slices, Slice.allWords slices⟩ codes
  | [], _, _, h => by
    cases h
    exact .nil
  | .index _ :: _, _, hwell, h => by
    obtain ⟨hindex, hrest⟩ := Bool.and_eq_true_iff.mp hwell
    obtain ⟨code, codes, hcode, hcodes, rfl⟩ := exists_of_map₂_eq_ok h
    exact .cons (holds_bound hindex hcode) (holds_subscripts hrest hcodes)
  | .range _ _ _ :: _, _, hwell, h => by
    simp only [Slice.areWellFormed, Bool.and_eq_true] at hwell
    obtain ⟨code, codes, hcode, hcodes, rfl⟩ := exists_of_map₂_eq_ok h
    have hslice :=
      holds_rangeSlice (holds_optionalBound hwell.1.1.1) (holds_optionalBound hwell.1.1.2)
      (holds_optionalStep hwell.1.2) hcode
    exact .cons hslice (holds_subscripts hwell.2 hcodes)

/-- The bounds of a slice, where they are given. -/
theorem holds_optionalBound :
    ∀ {limit : Option Expression}, Expression.isWellFormed? limit → ∀ e ∈ limit,
    ∀ (kind : Bound) (code : Code), bound scope kind e = .ok code → Holds scope e.trace code
  | none, _ => by simp
  | some e, hwell => by
    intro e' he' kind code h
    cases he'
    exact holds_bound hwell h

/-- The step of a slice, where it is given. -/
theorem holds_optionalStep :
    ∀ {step : Option Expression}, Expression.isWellFormed? step → ∀ e ∈ step,
    ∀ code : Code, expression scope e = .ok code → Holds scope e.trace code
  | none, _ => by simp
  | some e, hwell => by
    intro e' he' code h
    cases he'
    exact (leads_expression hwell h).holds

theorem holds_bound : ∀ {e : Expression} {kind : Bound} {code : Code}, e.isWellFormed →
    bound scope kind e = .ok code → Holds scope e.trace code
  | ⟨tree, span⟩, kind, code, hwell, h => by
    unfold bound at h
    split at h
    · rename_i folded hfold
      cases h
      obtain ⟨value, hvalue, hfolded⟩ := Option.bind_eq_some_iff.mp hfold
      rw [Expression.trace_eq, Expr.trace_of_integer? hvalue]
      exact holds_fold? hfolded
    · obtain ⟨inner, hinner, rfl⟩ := exists_of_map_eq_ok h
      exact ((leads_operators hwell hinner).holds.groupIf _).shift kind

theorem holds_rangeLast : ∀ {e : Expression} {descending : Bool} {code : Code}, e.isWellFormed →
    rangeLast scope descending e = .ok code → Holds scope e.trace code
  | ⟨tree, span⟩, descending, code, hwell, h => by
    unfold rangeLast at h
    split at h
    · rename_i folded hfold
      cases h
      obtain ⟨value, hvalue, hfolded⟩ := Option.bind_eq_some_iff.mp hfold
      rw [Expression.trace_eq, Expr.trace_of_integer? hvalue]
      exact holds_literal64? hfolded
    · obtain ⟨inner, hinner, rfl⟩ := exists_of_map_eq_ok h
      exact ((leads_operators hwell hinner).holds.groupIf _).shiftLast descending

/-- A call of a superclass holds its arguments. -/
theorem leads_superCall : ∀ {call : SuperCall} {code : Code}, call.isWellFormed →
    superCall scope call = .ok code → Leads scope (Expression.allTrace call.arguments.values) code
  | ⟨_, _, ⟨_, _⟩, _⟩, _, hwell, h => by
    simp only [SuperCall.isWellFormed, Arguments.isWellFormed, Bool.and_eq_true,
      Option.all_eq_true] at hwell
    obtain ⟨start, hstart, h⟩ := exists_of_bind_eq_ok h
    obtain ⟨target, htarget, h⟩ := exists_of_bind_eq_ok h
    obtain ⟨arguments, harguments, rfl⟩ := exists_of_map_eq_ok h
    have hwords (hscope : scope.isLexical) :=
      isWord_superTarget hscope (fun s hs => isWord_of_isPlainName (hwell.1.1 s hs)) hstart
    have hcall := Holds.superCall (holds_expressions hwell.2 harguments)
      (fun hclosed => hasForm_staticTarget (contains_superTarget hclosed hstart) htarget)
      (fun hscope => isName_escape (isName_of_isWord (hwords hscope).1))
      fun hscope => isNamed_staticTarget hscope (hwords hscope).2 hwell.1.2 htarget _
    exact ⟨hcall, rfl⟩

theorem leads_atomCode :
    ∀ {atom : Atom} {code : Code}, atom.isWellFormed → atomCode scope atom = .ok code →
    Leads scope atom.trace code
  | .name _, _, hwell, h => by
    cases h
    exact leads_nameCode hwell
  | .boolean _, _, _, h | .none, _, _, h | .integer _, _, _, h | .float _, _, _,
    h | .str _, _, _, h => by
    cases h
    exact ⟨holds_leaf _ rfl rfl, rfl⟩
  | .formatted _, _, hwell, h => by
    obtain ⟨codes, hcodes, rfl⟩ := exists_of_map_eq_ok h
    exact ⟨.inner rfl (holds_formattedParts hwell hcodes), rfl⟩
  | .group _, _, hwell, h => by
    obtain ⟨code, hcode, rfl⟩ := exists_of_map_eq_ok h
    exact ⟨.inner rfl (leads_expression hwell hcode).holds.single, rfl⟩
  | .list _, _, hwell, h => by
    obtain ⟨codes, hcodes, rfl⟩ := exists_of_map_eq_ok h
    exact ⟨.inner rfl (holds_expressions hwell hcodes), rfl⟩
  | .library ⟨_, ⟨_, _⟩, _⟩, _, hwell, h => by
    obtain ⟨hname, hvalues⟩ := Bool.and_eq_true_iff.mp hwell
    exact leads_callForm hname (leads_of_mem hvalues) (fun _ hcodes =>
      holds_expressions hvalues hcodes) h
  | .builtin ⟨_, ⟨_, _⟩, _⟩, _, hwell, h => by
    obtain ⟨hname, hvalues⟩ := Bool.and_eq_true_iff.mp (Bool.and_eq_true_iff.mp hwell).2
    have hcall :=
      leads_callForm hname (leads_of_mem hvalues) (fun _ hcodes =>
      holds_expressions hvalues hcodes) h
    exact ⟨.found (show callCode scope (.known _) = .ok _ from h) hcall.holds, hcall.startsPlain⟩
  | .super ⟨_, _, ⟨_, _⟩, _⟩, _, hwell, h => leads_superCall hwell h

/-- The arguments of a call, also where they are the ends of a range. -/
theorem leads_of_mem : ∀ {es : List Expression}, Expression.areWellFormed es → ∀ e ∈ es,
    (∀ code, expression scope e = .ok code → Leads scope e.trace code) ∧
      ∀ descending code, rangeLast scope descending e = .ok code → Holds scope e.trace code
  | [], _ => by simp
  | e :: es, hwell => by
    obtain ⟨he, hes⟩ := Bool.and_eq_true_iff.mp hwell
    have hfirst : ∀ code, expression scope e = .ok code → Leads scope e.trace code :=
      fun _ h => leads_expression he h
    have hlast : ∀ descending code, rangeLast scope descending e = .ok code →
        Holds scope e.trace code :=
      fun _ _ h => holds_rangeLast he h
    exact forall_mem_cons.mpr ⟨⟨hfirst, hlast⟩, leads_of_mem hes⟩

theorem holds_formattedParts : ∀ {parts : List FormattedPart} {codes : List CodePart},
    FormattedPart.areWellFormed parts → formattedParts scope parts = .ok codes →
    HoldsAll scope ⟨FormattedPart.allMembers parts, FormattedPart.allCalls parts,
      FormattedPart.allWords parts⟩
      (codes.filterMap CodePart.code?)
  | [], _, _, h => by
    cases h
    exact .nil
  | .literal _ :: rest, _, hwell, h => by
    have hwell : FormattedPart.areWellFormed rest := hwell
    obtain ⟨codes, hcodes, rfl⟩ := exists_of_map_eq_ok h
    have hrest := holds_formattedParts hwell hcodes
    exact hrest
  | .embedded _ :: _, _, hwell, h => by
    obtain ⟨hinner, hrest⟩ := Bool.and_eq_true_iff.mp hwell
    obtain ⟨code, codes, hcode, hcodes, rfl⟩ := exists_of_map₂_eq_ok h
    exact .cons (leads_expression hinner hcode).holds (holds_formattedParts hrest hcodes)

end

theorem holds_expression (hwell : e.isWellFormed) (h : expression scope e = .ok code) :
    Holds scope e.trace code := (leads_expression hwell h).holds

/-! ## Names -/

mutual

/-- All names in the code of an expression are names of the emitted language. -/
theorem Holds.lexical (hscope : scope.isLexical) :
    ∀ {t : Trace} {code : Code}, Holds scope t code → code.isLexical
  | _, _, .node _ h _ hnamed => Code.isLexical_of_children (hnamed hscope) (h.lexical hscope)
  | _, _, .name _ _ hnamed => hnamed hscope
  | _, _, .superCall h _ hreceiver hnamed => Code.isLexical_of_children (hnamed hscope)
    (Bool.and_eq_true_iff.mpr ⟨hreceiver hscope, h.lexical hscope⟩)
  | _, _, .member h hname => Bool.and_eq_true_iff.mpr
    ⟨h.lexical hscope, isName_memberName (isWord_of_isPlainName hname) (isWord_className hscope)⟩
  | _, _, .statistic hform h =>
    Bool.and_eq_true_iff.mpr ⟨(of_callForm (.inr (.inr hform))).1, h.lexical hscope⟩
  | _, _, .found _ h | _, _, .ordered _ _ h => h.lexical hscope

theorem HoldsAll.lexical (hscope : scope.isLexical) : ∀ {t : Trace} {codes : List Code},
    HoldsAll scope t codes → Code.areLexical codes
  | _, _, .nil => rfl
  | _, _, .cons h hrest => Bool.and_eq_true_iff.mpr ⟨h.lexical hscope, hrest.lexical hscope⟩

end

/-! ## Parts of statements -/

theorem leads_target {target : Declaration} (hwell : target.isWellFormed)
    (h : targetCode scope target = .ok code) :
    Leads scope ⟨target.members, target.calls, target.words⟩ code := by
  simp only [Declaration.isWellFormed, Bool.and_eq_true] at hwell
  exact leads_primary (p := ⟨.name target.name, target.accesses, target.span⟩) hwell.1.1 hwell.2 h

theorem holds_targets {targets : List Declaration} {codes : List Code}
    (hwell : ∀ d ∈ targets, Declaration.isWellFormed d)
    (h : targets.mapM (targetCode scope) = .ok codes) :
    HoldsAll scope (Declaration.allTrace targets) codes := by
  induction targets generalizing codes with
  | nil =>
    cases h
    exact .nil
  | cons target targets ih =>
    obtain ⟨htarget, htargets⟩ := forall_mem_cons.mp hwell
    rw [mapM_cons] at h
    obtain ⟨code, codes, hcode, hcodes, rfl⟩ := exists_of_map₂_eq_ok h
    exact .cons (leads_target htarget hcode).holds (ih htargets hcodes)

theorem holds_augmentedValue (hwell : Expression.areWellFormed values)
    (h : augmentedValue scope values = .ok code) :
    Holds scope (Expression.allTrace values) code := by
  unfold augmentedValue at h
  split at h
  · obtain ⟨inner, hinner, rfl⟩ := exists_of_map_eq_ok h
    exact ((holds_expression (Bool.and_eq_true_iff.mp hwell).1 hinner).of_single).groupIf _
  · obtain ⟨codes, hcodes, rfl⟩ := exists_of_map_eq_ok h
    exact .inner rfl (holds_expressions hwell hcodes)

theorem holds_iterableCode (hwell : Expression.areWellFormed values)
    (h : iterableCode scope values = .ok code) : Holds scope (Expression.allTrace values) code := by
  unfold iterableCode at h
  split at h
  · exact (holds_expression (Bool.and_eq_true_iff.mp hwell).1 h).of_single
  · obtain ⟨codes, hcodes, rfl⟩ := exists_of_map_eq_ok h
    exact .inner rfl (holds_expressions hwell hcodes)

/-- The default value of a parameter, in front of those of others. -/
theorem HoldsAll.default {value : Option Expression} {default : Option Code}
    (hwell : value.all Expression.isWellFormed) (h : defaultCode scope value = .ok default)
    {t : Trace} {formals : List Formal}
    (hformals : HoldsAll scope t (formals.filterMap Formal.default?)) (name : String)
    (type : Option TypeName) :
    HoldsAll scope (Expression.optionalTrace value ++ t)
      ((.plain name type default :: formals).filterMap Formal.default?) := by
  cases value with
  | none =>
    cases h
    exact hformals
  | some value =>
    obtain ⟨inner, hinner, rfl⟩ := exists_of_map_eq_ok h
    exact .cons (holds_expression hwell hinner) hformals

theorem holds_formals {formals : List Formal} (hwell : ∀ p ∈ parameters, Parameter.isWellFormed p)
    (h : parameters.mapM (formal scope) = .ok formals) :
    HoldsAll scope (Parameter.allTrace parameters) (formals.filterMap Formal.default?) := by
  induction parameters generalizing formals with
  | nil =>
    cases h
    exact .nil
  | cons parameter parameters ih =>
    obtain ⟨hparameter, hparameters⟩ := forall_mem_cons.mp hwell
    rw [mapM_cons] at h
    obtain ⟨first, rest, hfirst, hrest, rfl⟩ := exists_of_map₂_eq_ok h
    obtain ⟨type, default, -, hdefault, rfl⟩ := exists_of_map₂_eq_ok hfirst
    exact (ih hparameters hrest).default (Bool.and_eq_true_iff.mp hparameter).2 hdefault _ type

theorem holds_methodFormals {marker : TypeName} {formals : List Formal}
    (hwell : ∀ p ∈ parameters, Parameter.isWellFormed p)
    (h : methodFormals scope marker parameters = .ok formals) :
    HoldsAll scope (Parameter.allTrace parameters) (formals.filterMap Formal.default?) := by
  cases parameters with
  | nil =>
    cases h
    exact .nil
  | cons receiver rest =>
    obtain ⟨hreceiver, hrest⟩ := forall_mem_cons.mp hwell
    obtain ⟨default, formals, hdefault, hformals, rfl⟩ := exists_of_map₂_eq_ok h
    exact (holds_formals hrest hformals).default (Bool.and_eq_true_iff.mp hreceiver).2 hdefault
      _ (some marker)

end Expressions

end Offside.Emit
