import Offside.Proofs.Emit.Contents
import Offside.Proofs.Emit.Methods
import Offside.Proofs.Reader.WellFormedProgram

/-!
# Calls and accesses in emitted programs

Nothing of a program is lost when it is emitted: each call by name has an emitted form, and this
form stands in the code of the program; the members in the code are those that the program accesses,
in their order, as they are spelled in the class around; the calls of methods in it reach methods; a
function of the statistics library is called in it if one is called in the program, and another
function of such a name is called in it only if the name is a word of the program
(`retains_statements`).
-/

namespace Offside.Emit

open Target List

/-! ## Expressions -/

/-- Some names as members in a scope. -/
def spelled (scope : Scope) (names : List String) : List String :=
  names.map (memberName · scope.className)

/-- Some calls in the scope that they are emitted in. -/
def within (scope : Scope) (calls : List NamedCall) : List (Scope × NamedCall) :=
  calls.map fun call => (scope, call)

/-- The calls stand in scopes with the given classes.  They have emitted forms there, and the
property holds of all expressions inside these. -/
def FindsAll (P : Code → Prop) (registry : ClassRegistry) (sites : List (Scope × NamedCall)) :
    Prop :=
  ∀ site ∈ sites, site.1.registry = registry ∧ ∃ code, callCode site.1 site.2 =
    .ok code ∧ code.Every P

/-- If a function of the name of a statistics function is called, then the name is one of the words.
-/
def Written (words : List Word) : Code → Prop
  | .call (.name function) _ => function ∈ statisticsFunctions → .other function ∈ words
  | _ => True

/-- The expressions have the given members and hold the forms of the given calls, and they call
statistics functions and others of such names as the given words do.  Their calls of methods reach
methods. -/
structure Retains (registry : ClassRegistry) (texts : List String)
    (sites : List (Scope × NamedCall))
    (words : List Word) (codes : List Code) : Prop where
  members : Code.allMembers codes = texts
  finds {P : Code → Prop} : Code.EveryOf P codes → FindsAll P registry sites
  statistics : (Code.allParts codes).any Code.isStatistic = words.any Word.isStatistic
  resolved : registry.IsClosed → Code.EveryOf (Resolves registry) codes
  written : Code.EveryOf (Written words) codes

theorem Written.mono {words words' : List Word} (h : words ⊆ words') {code : Code}
    (hcode : Written words code) :
    Written words' code := by
  unfold Written at hcode ⊢
  split
  · exact fun hmem => h (hcode hmem)
  · trivial

/-- Whether an expression calls neither a method nor a function of the name of a statistics
function. -/
def isPlain : Code → Bool
  | .call (.name function) _ => !statisticsFunctions.contains function
  | .statistic _ _ | .staticCall _ _ _ | .methodCall _ _ => false
  | _ => true

section Expressions

variable {scope : Scope} {registry : ClassRegistry}

theorem spelled_append (names names' : List String) :
    spelled scope (names ++ names') = spelled scope names ++ spelled scope names' := map_append

namespace Retains

variable {texts texts' : List String} {sites sites' : List (Scope × NamedCall)}
  {words words' : List Word} {codes codes' : List Code}

theorem nil : Retains registry [] [] [] [] :=
  ⟨rfl, fun _ => forall_mem_nil _, rfl, fun _ => forall_mem_nil _, forall_mem_nil _⟩

theorem append (h : Retains registry texts sites words codes)
    (h' : Retains registry texts' sites' words' codes') :
    Retains registry (texts ++ texts') (sites ++ sites') (words ++ words') (codes ++ codes') where
  members := by rw [Code.allMembers_append, h.members, h'.members]
  finds hevery := by
    obtain ⟨hfirst, hrest⟩ := Code.everyOf_append.mp hevery
    exact forall_mem_append.mpr ⟨h.finds hfirst, h'.finds hrest⟩
  statistics := by rw [Code.allParts_append, any_append, any_append, h.statistics, h'.statistics]
  resolved hclosed := Code.everyOf_append.mpr ⟨h.resolved hclosed, h'.resolved hclosed⟩
  written :=
    Code.everyOf_append.mpr ⟨fun part hpart => (h.written part hpart).mono (subset_append_left _ _),
    fun part hpart => (h'.written part hpart).mono (subset_append_right _ _)⟩

/-- An expression whose direct parts are given. -/
theorem above (code : Code) (front : List Word)
    (h : Retains registry texts sites words code.children)
    (hfront : front.any Word.isStatistic = code.isStatistic)
    (hresolves : registry.IsClosed → Resolves registry code)
    (hwritten : Written words code := by trivial) :
    Retains registry (texts ++ code.member?.toList) sites (front ++ words) [code] where
  members := by
    rw [← h.members, ← Code.members_eq_children, Code.allMembers, Code.allMembers, append_nil]
  finds hevery := h.finds (Code.every_iff_children.mp (Code.everyOf_singleton.mp hevery)).2
  statistics := by
    rw [Code.allParts, Code.allParts, append_nil, Code.parts_eq, any_cons, h.statistics,
      any_append, hfront]
  resolved hclosed :=
    Code.everyOf_singleton.mpr (Code.every_iff_children.mpr ⟨hresolves hclosed, h.resolved hclosed⟩)
  written := by
    have hsub : words ⊆ front ++ words := subset_append_right _ _
    exact Code.everyOf_singleton.mpr (Code.every_iff_children.mpr
      ⟨hwritten.mono hsub, fun part hpart => (h.written part hpart).mono hsub⟩)

/-- Not all calls need to be looked for, and more words may be written. -/
theorem of_subset (h : Retains registry texts sites words codes) (htexts : texts = texts')
    (hsites : sites' ⊆ sites) (hwords : Word.Within words words') :
    Retains registry texts' sites' words' codes :=
  ⟨h.members.trans htexts, fun hevery site hsite => h.finds hevery site (hsites hsite),
    h.statistics.trans hwords.any_isStatistic, h.resolved, fun part hpart =>
      (h.written part hpart).mono hwords.subset⟩

/-- Expressions in which nothing is followed. -/
theorem of_isPlain (hmembers : Code.allMembers codes = [])
    (hplain : (Code.allParts codes).all isPlain) :
    Retains registry [] [] [] codes := by
  have hparts := all_eq_true.mp hplain
  refine ⟨hmembers, fun _ => forall_mem_nil _, any_eq_false.mpr ?_, fun _ => ?_, ?_⟩
  · intro part hpart hstatistic
    have hpart := hparts part hpart
    cases part with
    | statistic => cases hpart
    | _ => cases hstatistic
  · intro part hpart
    have hpart := hparts part hpart
    cases part with
    | statistic => cases hpart
    | staticCall => cases hpart
    | methodCall => cases hpart
    | _ => trivial
  · intro part hpart
    have hpart := hparts part hpart
    unfold Written
    split
    · intro hmem
      rw [isPlain, contains_iff_mem.mpr hmem] at hpart
      cases hpart
    · trivial

end Retains

theorem of_isFree {code : Code} (h : isFree code) :
    code.member? = none ∧ code.isStatistic = false := by
  cases code with
  | member => cases h
  | statistic => cases h
  | _ => exact ⟨rfl, rfl⟩

/-- The name of a statistics function is one of the words. -/
theorem Holds.other_mem_words {t : Trace} {text : String} (h : Holds scope t (.name text))
    (hmem : text ∈ statisticsFunctions) : .other text ∈ t.words := by
  generalize hcode : Code.name text = code at h
  induction h using Holds.rec (motive_2 := fun _ _ _ => True) with
  | node hfree =>
    subst hcode
    cases hfree
  | name words hwords =>
    cases hcode
    exact mem_map_of_mem (hwords hmem)
  | found _ _ ih => exact ih hcode
  | ordered _ hwords _ ih => exact hwords.subset (ih hcode)
  | nil => trivial
  | cons => trivial
  | _ => cases hcode

theorem HoldsAll.written {t : Trace} {code : Code} (h : HoldsAll scope t code.children) :
    Written t.words code := by
  unfold Written
  split
  · intro hmem
    cases h with
    | cons hfunction _ => exact mem_append_left _ (hfunction.other_mem_words hmem)
  · trivial

mutual

/-- Code that holds the parts of an expression retains them. -/
theorem Holds.retains : ∀ {t : Trace} {code : Code}, Holds scope t code →
    Retains scope.registry (spelled scope t.names) (within scope t.calls) t.words [code]
  | _, _, .node hfree h hresolves _ => by
    have hnode := h.retains.above _ [] (of_isFree hfree).2.symm hresolves h.written
    rwa [(of_isFree hfree).1, Option.toList_none, append_nil] at hnode
  | _, _, @Holds.name _ words text _ _ => by
    have hname : Retains scope.registry [] [] [] [.name text] := .of_isPlain rfl rfl
    refine hname.of_subset rfl (List.Subset.refl _) ⟨nil_subset _, fun w hw hstatistic => ?_⟩
    obtain ⟨name, -, rfl⟩ := mem_map.mp hw
    cases hstatistic
  | _, _, @Holds.member _ _ _ h name _ => by
    have hmember := h.retains.above (memberCode scope _ name) [.other name] rfl fun _ => trivial
    refine hmember.of_subset (spelled_append _ [name]).symm ?_ (.of_perm perm_append_comm)
    rw [Trace.append_def, append_nil]
    exact List.Subset.refl _
  | _, _, @Holds.superCall _ _ owner method receiver _ h hresolves _ _ => by
    have hreceiver : Retains scope.registry [] [] [] [.name receiver] := .of_isPlain rfl rfl
    have hcall := (hreceiver.append h.retains).above (.staticCall owner method _) [] rfl hresolves
    exact hcall.of_subset (append_nil _) (List.Subset.refl _) (.of_perm (.refl _))
  | _, _, @Holds.statistic _ _ name function hform _ h => by
    have hword : [Word.function name].any Word.isStatistic := by
      simp [Word.isStatistic, hform, CallForm.statistic?]
    have hcall :=
      h.retains.above (.statistic function _) [.function name] hword fun _ => ⟨name, hform⟩
    exact hcall.of_subset (append_nil _) (List.Subset.refl _) (.of_perm (.refl _))
  | _, _, .found hcall h => by
    have hkept := h.retains
    refine ⟨hkept.members, fun hevery => ?_, hkept.statistics, hkept.resolved, hkept.written⟩
    exact forall_mem_cons.mpr ⟨⟨rfl, _, hcall, Code.everyOf_singleton.mp hevery⟩,
      hkept.finds hevery⟩
  | _, _, .ordered hperm hwords h => h.retains.of_subset rfl (hperm.symm.map _).subset hwords

theorem HoldsAll.retains : ∀ {t : Trace} {codes : List Code}, HoldsAll scope t codes →
    Retains scope.registry (spelled scope t.names) (within scope t.calls) t.words codes
  | _, _, .nil => .nil
  | _, _, .cons h hrest => by
    have hall := h.retains.append hrest.retains
    rwa [← spelled_append, within, within, ← map_append] at hall

end

end Expressions

/-! ## Calls in statements -/

mutual

/-- The calls in a statement, each in the scope that it is emitted in. -/
def callsOf (scope : Scope) : Statement → List (Scope × NamedCall)
  | .assign a => within scope a.calls
  | .superCall call => within scope call.calls
  | .returns none _ | .pass | .breaks | .continues => []
  | .returns (some values) _ => within scope (Expression.allCalls values)
  | .expressions list => within scope (Expression.allCalls list)
  | .function ⟨_, parameters, _, body, _⟩ =>
    within scope (Parameter.allCalls parameters) ++ allCallsOf scope.ofFunction body
  | .classDef ⟨name, _, body, _, _⟩ => memberCalls scope name body
  | .conditional ⟨condition, body, otherwise, _⟩ =>
    within scope condition.calls ++ allCallsOf scope body ++ alternativeCalls scope otherwise
  | .forLoop target iterable body _ =>
    within scope (Expression.allCalls iterable) ++ allCallsOf (scope.ofLoop target) body
  | .whileLoop condition body _ =>
    within scope condition.calls ++ allCallsOf (scope.ofLoop none) body

/-- The calls in some statements. -/
def allCallsOf (scope : Scope) : List Statement → List (Scope × NamedCall)
  | [] => []
  | first :: rest => callsOf scope first ++ allCallsOf scope rest

/-- The calls in what is done when a condition does not hold. -/
def alternativeCalls (scope : Scope) : Otherwise → List (Scope × NamedCall)
  | .nothing => []
  | .elseIf ⟨condition, body, otherwise, _⟩ =>
    within scope condition.calls ++ allCallsOf scope body ++ alternativeCalls scope otherwise
  | .block body => allCallsOf scope body

/-- The calls in the body of a class. -/
def memberCalls (scope : Scope) (className : String) : List Statement → List (Scope × NamedCall)
  | [] => []
  | .function ⟨name, parameters, returnHint, body, span⟩ :: rest =>
    within scope (Parameter.allCalls parameters) ++
      allCallsOf (scope.ofMethod className ⟨name, parameters, returnHint, body, span⟩) body ++
      memberCalls scope className rest
  | first :: rest => callsOf scope first ++ memberCalls scope className rest

end

section Statements

variable {scope : Scope} {registry : ClassRegistry}

/-- The parts of an assignment retain its names, calls and words. -/
theorem retains_assignmentParts {a : Assignment} (hwell : a.isWellFormed)
    {targets values : List Code} {type : Option TypeName}
    (h : assignmentParts scope a = .ok (targets, type, values)) :
    Retains scope.registry (spelled scope a.members) (within scope a.calls)
      (a.targets.flatMap Declaration.words ++ Expression.allWords a.value) (targets ++ values) := by
  simp only [Assignment.isWellFormed, Bool.and_eq_true, all_eq_true] at hwell
  obtain ⟨⟨htakes, htargets⟩, hvalues⟩ := hwell
  obtain ⟨-, hvalues⟩ := Expression.of_isWellFormedList hvalues
  obtain ⟨found, hfound, h⟩ := exists_of_bind_eq_ok h
  rw [Assignment.calls]
  split at h
  · rename_i hop
    obtain ⟨type', codes, -, hcodes, heq⟩ := exists_of_map₂_eq_ok h
    cases heq
    have hall :=
      (holds_targets htargets hfound).retains.append (holds_expressions hvalues hcodes).retains
    rw [Assignment.members_of_plain hop, spelled_append, within, map_append]
    exact hall
  · rename_i op hop
    split at h
    · cases h
    · rename_i operator _
      obtain ⟨value, hvalue, heq⟩ := exists_of_map_eq_ok h
      cases heq
      have hone : a.targets.length = 1 := by
        rw [hop] at htakes
        exact eq_of_beq htakes
      -- the value stands behind the only target, which is written twice
      obtain ⟨target, htarget⟩ := length_eq_one_iff.mp hone
      rw [htarget, mapM_cons, mapM_nil] at hfound
      obtain ⟨code, rest, hcode, hrest, rfl⟩ := exists_of_map₂_eq_ok hfound
      cases hrest
      have hholds := (leads_target (htargets target (by simp [htarget])) hcode).holds
      have hchain : Holds scope _ (.chain code [(operator, value)]) :=
        .inner rfl (hholds.pair (holds_augmentedValue hvalues hvalue))
      have hall := (HoldsAll.cons hholds hchain.single).retains
      rw [Assignment.members_of_augmented hop, htarget, flatMap_singleton, flatMap_singleton,
        flatMap_singleton, append_assoc]
      refine hall.of_subset rfl (map_subset _ (subset_append_right _ _)) ⟨?_, fun w hw _ => ?_⟩
      · exact append_subset.mpr ⟨subset_append_left _ _, List.Subset.refl _⟩
      · exact mem_append_right _ hw

variable {items : List Item} {p p' : Progress}

theorem retains_assignment {a : Assignment} (hwell : a.isWellFormed)
    (h : assignment scope a p = .ok items p') :
    Retains scope.registry (spelled scope a.members) (within scope a.calls)
      (a.targets.flatMap Declaration.words ++ Expression.allWords a.value)
        (Item.allCodes items) := by
  obtain ⟨targets, type, values, declared, hparts, -, rfl⟩ := exists_of_assignment h
  have hcodes : Item.allCodes (storeItems a declared targets type values) = targets ++ values := by
    unfold storeItems
    split
    · exact Item.allCodes_singleton _
    · split <;> exact Item.allCodes_singleton _
  rw [hcodes]
  exact retains_assignmentParts hwell hparts

@[simp] theorem Scope.registry_ofLoop (target : Option String) :
    (scope.ofLoop target).registry = scope.registry := by
  unfold Scope.ofLoop
  split <;> rfl

theorem spelled_ofLoop (target : Option String) (names : List String) :
    spelled (scope.ofLoop target) names = spelled scope names := by
  unfold Scope.ofLoop
  split <;> rfl

/-- The return of an initializer without a value names its receiver. -/
theorem retains_returnValues_none {codes : List Code} (h : returnValues scope none = .ok codes) :
    Retains registry [] [] [] codes := by
  unfold returnValues at h
  split at h
  · rename_i heq
    cases heq
  · split at h
    · cases h
      split
      · exact .of_isPlain rfl rfl
      · exact .nil
    · cases h
      exact .nil

mutual

/-- A statement without classes keeps its members and its calls. -/
theorem retains_statement {scope : Scope} : ∀ {s : Statement} {p p' : Progress} {items : List Item},
    s.isWellFormed → statement scope s p = .ok items p' →
    Retains scope.registry (spelled scope s.members) (callsOf scope s) s.words (Item.allCodes items)
  | .assign _, _, _, _, hwell, h => retains_assignment hwell h
  | .superCall _, _, _, _, hwell, h => by
    obtain ⟨code, hcode, h⟩ := exists_of_lift_bind h
    cases h
    exact (leads_superCall hwell hcode).holds.single.retains
  | .returns none _, _, _, _, _, h => by
    obtain ⟨codes, hcodes, h⟩ := exists_of_lift_bind h
    cases h
    rw [Item.allCodes_singleton]
    exact retains_returnValues_none hcodes
  | .returns (some _) _, _, _, _, hwell, h => by
    obtain ⟨codes, hcodes, h⟩ := exists_of_lift_bind h
    cases h
    rw [Item.allCodes_singleton]
    exact (holds_expressions (Expression.of_isWellFormedList hwell).2 hcodes).retains
  | .expressions _, _, _, _, hwell, h => by
    obtain ⟨codes, hcodes, h⟩ := exists_of_lift_bind h
    cases h
    rw [Item.allCodes_singleton]
    exact (holds_expressions (Expression.of_isWellFormedList (Bool.and_eq_true_iff.mp hwell).1).2
      hcodes).retains
  | .pass, _, _, _, _, h => by
    cases h
    exact (holds_leaf .nothing rfl rfl).single.retains
  | .breaks, _, _, _, _, h | .continues, _, _, _, _, h => by
    cases h
    exact .nil
  | .function ⟨_, parameters, _, body, _⟩, _, _, _, hwell, h => by
    obtain ⟨formals, returns, inner, hformals, -, hinner, rfl⟩ := exists_of_function h
    obtain ⟨hparameters, hbody⟩ : (∀ p ∈ parameters, p.isWellFormed) ∧
        Statement.areWellFormed body :=
      FunctionDef.of_isWellFormed hwell
    have hdefaults := (holds_formals hparameters hformals).retains
    have hbody := retains_block hbody hinner
    rw [Item.allCodes_singleton, Statement.members, spelled_append]
    exact hdefaults.append hbody
  | .classDef _, _, _, _, hwell, _ => nomatch hwell
  | .conditional ⟨_, body, otherwise, _⟩, _, _, _, hwell, h => by
    obtain ⟨hfirst, hotherwise⟩ := Bool.and_eq_true_iff.mp hwell
    obtain ⟨code, inner, mid, branches, hcode, hinner, hbranches, rfl⟩ := exists_of_branches h
    obtain ⟨hcondition, hbody⟩ := Bool.and_eq_true_iff.mp hfirst
    have hcondition :=
      (holds_expression hcondition hcode).single.retains.append (retains_block hbody hinner)
    rw [Item.allCodes_singleton, Statement.members, spelled_append, spelled_append]
    exact hcondition.append (retains_alternative hotherwise hbranches)
  | .forLoop target _ body _, _, _, _, hwell, h => by
    obtain ⟨code, inner, hcode, hinner, rfl⟩ := exists_of_block h
    obtain ⟨hhead, hbody⟩ := Bool.and_eq_true_iff.mp hwell
    obtain ⟨-, hiterable⟩ := Expression.of_isWellFormedList (Bool.and_eq_true_iff.mp hhead).2
    have hbody := retains_block hbody hinner
    rw [Scope.registry_ofLoop, spelled_ofLoop] at hbody
    rw [Item.allCodes_singleton, Statement.members, spelled_append]
    exact (holds_iterableCode hiterable hcode).single.retains.append hbody
  | .whileLoop _ body _, _, _, _, hwell, h => by
    obtain ⟨code, inner, hcode, hinner, rfl⟩ := exists_of_block h
    obtain ⟨hcondition, hbody⟩ := Bool.and_eq_true_iff.mp hwell
    have hbody := retains_block hbody hinner
    rw [Scope.registry_ofLoop, spelled_ofLoop] at hbody
    rw [Item.allCodes_singleton, Statement.members, spelled_append]
    exact (holds_expression hcondition hcode).single.retains.append hbody

theorem retains_block {scope : Scope} :
    ∀ {body : List Statement} {p p' : Progress} {items : List Item},
    Statement.areWellFormed body → block scope body p = .ok items p' →
    Retains scope.registry (spelled scope (Statement.allMembers body)) (allCallsOf scope body)
      (Statement.allWords body) (Item.allCodes items)
  | [], _, _, _, _, h => by
    cases h
    exact .nil
  | first :: rest, _, _, _, hwell, h => by
    obtain ⟨hfirst, hrest⟩ := Bool.and_eq_true_iff.mp hwell
    obtain ⟨items, items', mid, hitems, hitems', rfl⟩ := exists_of_block_cons h
    rw [Item.allCodes_append, Statement.allMembers, spelled_append]
    exact (retains_statement hfirst hitems).append (retains_block hrest hitems')

theorem retains_alternative {scope : Scope} :
    ∀ {otherwise : Otherwise} {p p' : Progress} {alternatives : Alternative},
    otherwise.isWellFormed → alternative scope otherwise p = .ok alternatives p' →
    Retains scope.registry (spelled scope otherwise.members) (alternativeCalls scope otherwise)
      otherwise.words alternatives.codes
  | .nothing, _, _, _, _, h => by
    cases h
    exact .nil
  | .elseIf ⟨_, body, otherwise, _⟩, _, _, _, hwell, h => by
    obtain ⟨hfirst, hotherwise⟩ := Bool.and_eq_true_iff.mp hwell
    obtain ⟨code, inner, mid, branches, hcode, hinner, hbranches, rfl⟩ := exists_of_branches h
    obtain ⟨hcondition, hbody⟩ := Bool.and_eq_true_iff.mp hfirst
    have hcondition :=
      (holds_expression hcondition hcode).single.retains.append (retains_block hbody hinner)
    rw [Otherwise.members, spelled_append, spelled_append]
    exact hcondition.append (retains_alternative hotherwise hbranches)
  | .block body, _, _, _, hwell, h => by
    obtain ⟨inner, mid, hinner, h⟩ := exists_of_step_bind h
    cases h
    have hbody := retains_block hwell hinner
    exact hbody

end

/-! ## Classes -/

/-- What a class body holds besides methods has no calls. -/
theorem callsOf_of_isMember (scope : Scope) {s : Statement} (hmember : s.isMember)
    (hfunction : s.function? = none) : callsOf scope s = [] ∧ s.words = [] := by
  cases s with
  | function f => cases hfunction
  | pass => exact ⟨rfl, rfl⟩
  | expressions list =>
    have hlist : Expression.allTrace list = {} := Expression.allTrace_of_isDocstring hmember
    obtain ⟨-, hcalls, hwords⟩ := Trace.mk.inj hlist
    rw [callsOf, hcalls]
    exact ⟨rfl, hwords⟩
  | _ => cases hmember

theorem retains_finalReturn (f : FunctionDef) :
    Retains registry [] [] [] (Item.allCodes (finalReturn f)) := by
  unfold finalReturn
  split
  · split
    · exact .of_isPlain rfl rfl
    · exact .nil
  · exact .nil

section Class

variable {l : Layout} {c : ClassDef} (hc : c ∈ scope.registry.latestFirst)
  (hname : l.className = c.name)

include hc hname

/-- The second form of a method has the default values of its parameters again, and calls the first
form. -/
theorem retains_dispatchItems {f : FunctionDef} (hf : f ∈ c.methods)
    (hparameters : ∀ p ∈ f.parameters, Parameter.isWellFormed p) {formals : List Formal}
    (h : methodFormals scope l.marker f.parameters = .ok formals) :
    Retains scope.registry (spelled scope (Parameter.allMembers f.parameters)) []
      (Parameter.allWords f.parameters)
      (Item.allCodes (dispatchItems l f (memberName f.name l.className) formals)) := by
  have hnames (parameters : List Parameter) :
      Retains scope.registry [] [] [] (parameters.map fun p => nameCode p.name) := by
    induction parameters with
    | nil => exact .nil
    | cons parameter parameters ih =>
      have hfirst : Retains scope.registry [] [] [] [nameCode parameter.name] := .of_isPlain rfl rfl
      exact hfirst.append ih
  have hcall :=
    (hnames f.parameters).above (.staticCall l.name (memberName f.name l.className) _)
    [] rfl fun _ =>
    ⟨c, hc, by rw [Layout.name, hname], .inl ⟨f, hf, by rw [hname]⟩⟩
  unfold dispatchItems
  split
  · rename_i hnone
    rw [isEmpty_iff.mp hnone]
    exact .nil
  · have hcodes (tag : String) (code : Code) : Item.allCodes
      [.blank, .equation ⟨methodName, .tag tag :: formals, none⟩
        code] = formals.filterMap Formal.default? ++ [code] := Item.allCodes_singleton _
    have hall := (holds_methodFormals hparameters h).retains.append hcall
    rw [hcodes]
    exact hall.of_subset (append_nil _) (nil_subset _) (.of_perm (.of_eq (append_nil _)))

/-- What every class has reads and writes attributes by functions. -/
theorem retains_classItems (hscope : scope.KnowsInitializers) (hl : l ∈ scope.layouts) :
    Retains scope.registry [] [] [] (Item.allCodes (classItems l)) := by
  have hattributes : Retains scope.registry [] [] []
    (Item.allCodes [.abstractType l.marker l.superMarker, .blank,
      .record l.name l.marker (l.fields.map fun field => (field.name, field.type)), .blank,
        readAttribute l, .blank,
      writeAttribute l]) := .of_isPlain rfl rfl
  rw [classItems, Item.allCodes_append]
  refine hattributes.append ?_
  split
  · rename_i hneeds
    have hself : Retains scope.registry [] [] [] [selfCode] := .of_isPlain rfl rfl
    refine hself.append
      (hself.above (.staticCall l.name initializerName [selfCode]) [] rfl fun _ => ?_)
    refine ⟨c, hc, by rw [Layout.name, hname], .inr ⟨rfl, ?_⟩⟩
    rw [← hname, ← hscope l hl]
    exact hneeds
  · exact .nil

end Class

theorem map_spelled_accesses (owner : String) (f : FunctionDef) :
    (FunctionDef.accesses owner f).map Access.spelled =
      (Parameter.allMembers f.parameters).map (memberName · none) ++
        (Statement.allMembers f.body).map (memberName · owner) ++
        (Parameter.allMembers f.parameters).map (memberName · none) := by
  rw [FunctionDef.accesses, map_append, map_append, Access.inDefaults, Access.within,
    map_map, map_map]
  rfl

/-- The methods of a class keep what is followed, where no class stands around their class. -/
theorem retains_methods (hscope : scope.className = none) {l : Layout} {c : ClassDef}
    (hc : c ∈ scope.registry.latestFirst) (hname : l.className = c.name) {body : List Statement}
    (hbody : ∀ f ∈ body.filterMap Statement.function?, f ∈ c.methods)
    (hmembers : body.all Statement.isMember) (hwell : Statement.areWellFormed body)
    (h : methods scope l body p = .ok items p') : Retains scope.registry
      (((body.filterMap Statement.function?).flatMap (FunctionDef.accesses l.className)).map
        Access.spelled)
      (memberCalls scope l.className body) (Statement.allWords body) (Item.allCodes items) := by
  induction body generalizing p items with
  | nil =>
    cases h
    exact .nil
  | cons first rest ih =>
    obtain ⟨hfirst, hrest⟩ := Bool.and_eq_true_iff.mp hwell
    obtain ⟨hmember, hothers⟩ := Bool.and_eq_true_iff.mp (all_cons ▸ hmembers)
    cases first with
    | function f =>
      obtain ⟨hf, hmethods⟩ := forall_mem_cons.mp hbody
      obtain ⟨formals, returns, inner, mid, more, hformals, -, hinner, hmore, rfl⟩ :=
        exists_of_method h
      obtain ⟨hparameters, hinside⟩ := FunctionDef.of_isWellFormed hfirst
      have hdefaults : Retains scope.registry (spelled scope (Parameter.allMembers f.parameters))
          (within scope (Parameter.allCalls f.parameters)) (Parameter.allWords f.parameters) _ :=
        (holds_methodFormals hparameters hformals).retains
      have hdispatch := retains_dispatchItems hc hname hf hparameters hformals
      have hcodes : Item.allCodes (.blank :: .function ⟨staticName,
            .tag l.name :: .tag (memberName f.name l.className) :: formals, returns⟩
              (inner ++ finalReturn f) ::
            dispatchItems l f (memberName f.name l.className) formals ++ more) =
          formals.filterMap Formal.default? ++ Item.allCodes inner ++
            (Item.allCodes (finalReturn f) ++
            (Item.allCodes (dispatchItems l f (memberName f.name l.className) formals) ++
              Item.allCodes more)) := by
        rw [cons_append, cons_append, Item.allCodes, Item.allCodes,
          Item.allCodes_append, Item.codes,
          Item.codes, Item.allCodes_append]
        simp only [append_assoc]
        rfl
      have hreturn : Retains scope.registry [] [] [] _ := retains_finalReturn f
      obtain ⟨name, parameters, returnHint, inside, span⟩ := f
      have hblock := retains_block hinside hinner
      have hall := (hdefaults.append hblock).append
        (hreturn.append (hdispatch.append (ih hmethods hothers hrest hmore)))
      rw [spelled, hscope] at hall
      rw [hcodes, filterMap_cons_some (by rfl), flatMap_cons, map_append,
        map_spelled_accesses, memberCalls]
      refine hall.of_subset ?_ (List.Subset.refl _) ?_
      · simp only [append_assoc]
        rfl
      · -- the default values are written twice
        constructor
        · intro w hw
          simp only [Statement.allWords, Statement.words, mem_append, not_mem_nil, false_or] at hw ⊢
          tauto
        · intro w hw _
          simp only [Statement.allWords, Statement.words, mem_append, not_mem_nil, false_or] at hw ⊢
          tauto
    | _ =>
      obtain ⟨hcalls, hwords⟩ := callsOf_of_isMember scope hmember rfl
      have hkept := Retains.nil.append (ih hbody hothers hrest h)
      rw [← hcalls, ← hwords] at hkept
      exact hkept

theorem retains_classDef (hscope : scope.className = none) (hknows : scope.KnowsInitializers)
    {c : ClassDef} (hc : c ∈ scope.registry.latestFirst) (hwell : c.WellFormed)
    (h : statement scope (.classDef c) p = .ok items p') :
    Retains scope.registry (c.accesses.map Access.spelled) (callsOf scope (.classDef c))
      (Statement.words (.classDef c)) (Item.allCodes items) := by
  obtain ⟨l, mid, more, hl, hname, hmore, rfl⟩ := exists_of_classDef h
  have hmethods := retains_methods hscope hc hname (fun _ hf => hf) hwell.members hwell.body hmore
  have hclass := retains_classItems hc hname hknows hl
  rw [hname] at hmethods
  rw [Item.allCodes_append]
  cases c
  exact hclass.append hmethods

/-! ## Programs -/

/-- The statements of a program keep their members, as they are spelled, and their calls. -/
theorem retains_statements (hscope : scope.className = none) (hknows : scope.KnowsInitializers)
    {source : Program} (hwell : ∀ s ∈ source, s.isWellFormed ∨ ∃ c, s = .classDef c ∧ c.WellFormed)
    (hclasses : ∀ c, .classDef c ∈ source → c ∈ scope.registry.latestFirst)
    (h : statements scope source p = .ok items p') :
    Retains scope.registry ((Program.accesses source).map Access.spelled) (allCallsOf scope source)
      (Statement.allWords source) (Item.allCodes items) := by
  induction source generalizing p items with
  | nil =>
    cases h
    exact .nil
  | cons first rest ih =>
    obtain ⟨hfirst, hrest⟩ := forall_mem_cons.mp hwell
    obtain ⟨inner, mid, hinner, h⟩ := exists_of_step_bind h
    obtain ⟨more, mid', hmore, h⟩ := exists_of_step_bind h
    cases h
    have hitems : Retains scope.registry (first.outerAccesses.map Access.spelled)
      (callsOf scope first)
        first.words (Item.allCodes inner) := by
      rcases hfirst with hfirst | ⟨c, rfl, hclass⟩
      · have hkept := retains_statement hfirst hinner
        have htexts : first.outerAccesses.map Access.spelled = spelled scope first.members := by
          rw [spelled, hscope]
          cases first with
          | classDef c => cases hfirst
          | _ => exact map_map
        rwa [htexts]
      · exact retains_classDef hscope hknows (hclasses c mem_cons_self) hclass hinner
    have hgap : Item.allCodes
        (if first.isDefinition && !rest.isEmpty then [.blank] else []) = [] := by
      split <;> rfl
    have hothers := ih hrest (fun c hc => hclasses c (mem_cons_of_mem _ hc)) hmore
    rw [Item.allCodes_append, Item.allCodes_append, hgap, append_nil, Program.accesses,
      flatMap_cons, map_append]
    exact hitems.append hothers

theorem allCodes_importItems (items : List Item) : Item.allCodes (importItems items) = [] := by
  unfold importItems
  split <;> rfl

theorem retains_shadowedItems :
    Retains registry [] [] [] (Item.allCodes (shadowedItems registry)) := by
  have hlist : ∀ method ∈ listMethods, method.2 ∉ statisticsFunctions := by decide
  have hitems (methods : List (String × String))
    (hmethods : ∀ method ∈ methods, method.2 ∉ statisticsFunctions) :
      Retains registry [] [] [] (Item.allCodes (methods.map shadowedItem)) := by
    induction methods with
    | nil => exact .nil
    | cons method methods ih =>
      obtain ⟨hmethod, hothers⟩ := forall_mem_cons.mp hmethods
      have hcall : (!statisticsFunctions.contains method.2) := by simpa using hmethod
      have hfirst : Retains registry [] [] [] (shadowedItem method).codes :=
        .of_isPlain rfl (Bool.and_eq_true_iff.mpr ⟨hcall, rfl⟩)
      exact hfirst.append (ih hothers)
  unfold shadowedItems
  split
  · exact .nil
  · rw [Item.allCodes_append]
    exact (hitems _ fun method hmethod => hlist method (mem_of_mem_filter hmethod)).append .nil

end Statements

end Offside.Emit
