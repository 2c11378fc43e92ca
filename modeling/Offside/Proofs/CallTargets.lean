import Offside.Proofs.DispatchTargets
import Offside.Proofs.SliceSelection

/-!
# Targets of calls of functions

A function keeps its name where it is defined.  Where it is called, the name may stand for something
else: a class of the same name is called in its place, and most functions known to the language have
a form of their own, whether or not the program defines a function of this name.  All other calls
reach the definition, with the arguments of the call in their order (`compile_calls_reach_iff`).
-/

namespace Offside

open List Target

namespace Emit

variable {scope : Scope}

/-- A call of the function of the given name with the given arguments.  The functions of the
statistics library are called in the same way as others. -/
inductive IsCallOf (name : String) (arguments : List Code) : Code → Prop
  | call : IsCallOf name arguments (.call (.name name) arguments)
  | statistic : IsCallOf name arguments (.statistic name arguments)

variable {code : Code} {e : Expression} {arguments : List Code} {name : String}

theorem IsCallOf.text_eq (h : IsCallOf name arguments code) :
    code.text = name ++ "(" ++ commas (Code.texts arguments) ++ ")" := by
  cases h with
  | call => rw [Code.text, Code.text]
  | statistic => rw [Code.text]

/-! ## Calls of known functions -/

/-- Whether a call of this form is a call of the function of the same name. -/
def CallForm.keepsName : CallForm → Bool
  | .statistics _ | .passThrough => true
  | _ => false

/-- The function that the calls of a form are calls of, if the form has one of its own. -/
def CallForm.function? : CallForm → Option String
  | .printLine => some "println"
  | .firstDimension => some "size"
  | .truncate => some "trunc"
  | .rename function | .statistics function => some function
  | _ => none

/-- No function is renamed to itself, and those of the statistics library are not renamed. -/
theorem function?_callForm {function : String} (h : (callForm name).function? = some function) :
    function = escape name ↔ (callForm name).keepsName := by
  have hforms : ∀ entry ∈ callForms, ∀ function ∈ entry.2.function?,
      function = escape entry.1 ↔ entry.2.keepsName := by decide
  unfold callForm at h ⊢
  cases hlookup : callForms.lookup name with
  | none =>
    rw [hlookup] at h
    cases h
  | some form =>
    rw [hlookup] at h
    exact hforms _ (mem_of_lookup hlookup) function h

theorem not_isCallOf_of_function? {function : String}
    (h : (callForm name).function? = some function) (hkeeps : (callForm name).keepsName = false)
    {arguments' : List Code} :
    ¬IsCallOf (escape name) arguments (.call (.name function) arguments') := by
  intro hcall
  have heq : function = escape name := by
    cases hcall
    rfl
  rw [(function?_callForm h).mp heq] at hkeeps
  cases hkeeps

theorem IsCallOf.sizeOf_lt (h : IsCallOf name arguments code) : sizeOf arguments < sizeOf code := by
  cases h with
  | call =>
    rw [Code.call.sizeOf_spec]
    omega
  | statistic =>
    rw [Code.statistic.sizeOf_spec]
    omega

/-- An expression is no call with itself as the argument. -/
theorem not_isCallOf_groupIf {needed : Bool} : ¬IsCallOf name [code] (groupIf needed code) := by
  intro h
  cases needed with
  | true => cases h
  | false =>
    have hsize : sizeOf [code] < sizeOf code := h.sizeOf_lt
    rw [cons.sizeOf_spec] at hsize
    omega

/-! ## Arguments -/

theorem expressions_cons {es : List Expression} {codes : List Code}
    (hcode : expression scope e = .ok code) (hcodes : expressions scope es = .ok codes) :
    expressions scope (e :: es) = .ok (code :: codes) := by
  rw [expressions, hcode, hcodes]
  rfl

theorem exists_of_operand (h : operand scope e = .ok code) :
    ∃ inner, expression scope e = .ok inner := by
  obtain ⟨tree, span⟩ := e
  obtain ⟨inner, hinner, -⟩ := exists_of_map_eq_ok h
  exact ⟨inner, hinner⟩

theorem exists_of_rangeLast {descending : Bool} (h : rangeLast scope descending e = .ok code) :
    ∃ inner, expression scope e = .ok inner := by
  obtain ⟨tree, span⟩ := e
  unfold rangeLast at h
  split at h
  · rename_i folded hfold
    obtain ⟨value, hvalue, -⟩ := Option.bind_eq_some_iff.mp hfold
    obtain ⟨inner, hinner, -⟩ := exists_of_integer? scope 0 hvalue
    exact ⟨inner, hinner⟩
  · obtain ⟨inner, hinner, -⟩ := exists_of_map_eq_ok h
    exact ⟨inner, hinner⟩

/-! ## Calls by name -/

/-- A call of a known function has all its arguments, and it is a call of the function of its name
exactly if its form keeps the name. -/
theorem exists_of_functionCall {values : List Expression} {argumentsSpan span : Span}
    (h : functionCall scope ⟨name, ⟨values, argumentsSpan⟩, span⟩ = .ok code) :
    ∃ arguments, expressions scope values = .ok arguments ∧
      (IsCallOf (escape name) arguments code ↔ (callForm name).keepsName) := by
  have hother {arguments : List Code} {code : Code} (hkeeps : (callForm name).keepsName = false)
      (hcode : ¬IsCallOf (escape name) arguments code) :
      IsCallOf (escape name) arguments code ↔ (callForm name).keepsName :=
    iff_of_false hcode (Bool.eq_false_iff.mp hkeeps)
  have hsingle {e : Expression} {code : Code} (hcode : expression scope e = .ok code) :
      expressions scope [e] = .ok [code] := expressions_cons hcode rfl
  rw [functionCall.eq_def] at h
  dsimp only at h
  split at h
  case h_1 | h_5 =>
    -- a printed line and a renamed function are calls of functions with other names
    rename_i hform
    obtain ⟨codes, hcodes, rfl⟩ := exists_of_map_eq_ok h
    have hkeeps : (callForm name).keepsName = false := by rw [hform]; rfl
    exact ⟨codes, hcodes, hother hkeeps (not_isCallOf_of_function? (by rw [hform]; rfl) hkeeps)⟩
  case h_2 | h_4 =>
    rename_i hform
    split at h
    · obtain ⟨code, hcode, rfl⟩ := exists_of_map_eq_ok h
      have hkeeps : (callForm name).keepsName = false := by rw [hform]; rfl
      exact ⟨_, hsingle hcode,
        hother hkeeps (not_isCallOf_of_function? (by rw [hform]; rfl) hkeeps)⟩
    · cases h
  case h_3 hform =>
    -- the ends of a range may be folded, but all arguments have codes of their own
    have hkeeps : (callForm name).keepsName = false := by rw [hform]; rfl
    split at h
    · obtain ⟨last, hlast, rfl⟩ := exists_of_map_eq_ok h
      obtain ⟨stop, hstop⟩ := exists_of_rangeLast hlast
      exact ⟨_, hsingle hstop, hother hkeeps (by rintro ⟨⟩)⟩
    · obtain ⟨first, last, hfirst, hlast, rfl⟩ := exists_of_map₂_eq_ok h
      obtain ⟨start, hstart⟩ := exists_of_operand hfirst
      obtain ⟨stop, hstop⟩ := exists_of_rangeLast hlast
      exact ⟨_, expressions_cons hstart (hsingle hstop), hother hkeeps (by rintro ⟨⟩)⟩
    · obtain ⟨first, hfirst, h⟩ := exists_of_bind_eq_ok h
      obtain ⟨step, last, hstep, hlast, rfl⟩ := exists_of_map₂_eq_ok h
      obtain ⟨start, hstart⟩ := exists_of_operand hfirst
      obtain ⟨stop, hstop⟩ := exists_of_rangeLast hlast
      exact ⟨_, expressions_cons hstart (expressions_cons hstop (hsingle hstep)),
        hother hkeeps (by rintro ⟨⟩)⟩
    · cases h
  case h_6 hform =>
    obtain ⟨codes, hcodes, rfl⟩ := exists_of_map_eq_ok h
    exact ⟨codes, hcodes, hother (by rw [hform]; rfl) (by rintro ⟨⟩)⟩
  case h_7 function hform =>
    obtain ⟨codes, hcodes, rfl⟩ := exists_of_map_eq_ok h
    have hkeeps : (callForm name).keepsName := by rw [hform]; rfl
    obtain rfl := (function?_callForm (by rw [hform]; rfl)).mpr hkeeps
    exact ⟨codes, hcodes, iff_of_true .statistic hkeeps⟩
  case h_8 hform =>
    split at h
    · cases h
    · obtain ⟨codes, hcodes, rfl⟩ := exists_of_map_eq_ok h
      exact ⟨codes, hcodes, hother (by rw [hform]; rfl) (by rintro ⟨⟩)⟩
  case h_9 hform =>
    -- the code is that of the argument, which may itself be a call, but not one with itself as its
    -- argument
    split at h
    · obtain ⟨code, hcode, rfl⟩ := exists_of_map_eq_ok h
      exact ⟨_, hsingle hcode, hother (by rw [hform]; rfl) not_isCallOf_groupIf⟩
    · cases h
  case h_10 hform =>
    obtain ⟨codes, hcodes, rfl⟩ := exists_of_map_eq_ok h
    exact ⟨codes, hcodes, iff_of_true .call (by rw [hform]; rfl)⟩

/-- The call of a name is that of a class if there is one of this name, and otherwise that of the
function. -/
theorem exists_of_plainCall {call : FunctionCall} (h : callCode scope (.plain call) = .ok code) :
    ∃ arguments, expressions scope call.arguments.values = .ok arguments ∧
      (IsCallOf (escape call.name) arguments code ↔ scope.registry.contains call.name = false) := by
  obtain ⟨name, ⟨values, argumentsSpan⟩, span⟩ := call
  obtain ⟨arguments, harguments, h⟩ := exists_of_bind_eq_ok h
  refine ⟨arguments, harguments, ?_⟩
  unfold Root.ofName at h
  by_cases hclass : scope.registry.contains name
  · rw [if_pos hclass] at h
    cases h
    exact iff_of_false (by rintro ⟨⟩) (by simp [hclass])
  · rw [if_neg hclass] at h
    cases h
    exact iff_of_true .call (Bool.eq_false_iff.mpr hclass)

/-- Whether a call reaches the function of its name in a program with the given classes. -/
def reaches (registry : ClassRegistry) : NamedCall → Bool
  | .plain call => !registry.contains call.name
  | .known call => (callForm call.name).keepsName

/-- A call has all its arguments, and it is emitted as a call of the function of its name exactly if
it reaches it. -/
theorem exists_of_callCode {site : NamedCall} (h : callCode scope site = .ok code) :
    ∃ arguments, expressions scope site.call.arguments.values = .ok arguments ∧
      (IsCallOf (escape site.call.name) arguments code ↔ reaches scope.registry site) := by
  cases site with
  | plain call =>
    obtain ⟨arguments, harguments, hcall⟩ := exists_of_plainCall h
    exact ⟨arguments, harguments, hcall.trans (by simp [reaches])⟩
  | known call =>
    obtain ⟨name, ⟨values, argumentsSpan⟩, span⟩ := call
    exact exists_of_functionCall h

/-! ## Programs -/

theorem mem_functions {source : Program} {f : FunctionDef} :
    f ∈ source.filterMap Statement.function? ↔ .function f ∈ source := by
  rw [mem_filterMap]
  constructor
  · rintro ⟨s, hs, hfunction⟩
    cases s with
    | function g => exact Option.some.inj hfunction ▸ hs
    | _ => cases hfunction
  · intro hf
    exact ⟨_, hf, rfl⟩

section Programs

variable {registry : ClassRegistry} {source : Program} {items : List Item}

/-- The code of a program defines its functions under their names. -/
theorem exists_function_of_statements {p p' : Progress}
    (h : statements scope source p = .ok items p') {f : FunctionDef} (hf : .function f ∈ source) :
    ∃ formals returns body, .function ⟨escape f.name, formals, returns⟩ body ∈ items := by
  obtain ⟨before, after, inner, hinner, hsub⟩ := exists_of_mem_statements h hf
  obtain ⟨name, parameters, returnHint, body, span⟩ := f
  obtain ⟨formals, mid, -, hinner⟩ := exists_of_step_bind hinner
  obtain ⟨returns, -, hinner⟩ := exists_of_lift_bind hinner
  obtain ⟨block, mid', -, hinner⟩ := exists_of_step_bind hinner
  cases hinner
  exact ⟨formals, returns, block, hsub mem_cons_self⟩

/-- The code of a program defines its functions and holds its calls. -/
theorem exists_calls_of_program {text : String} (hread : (readProgram text).result = .ok source)
    (h : (program (readProgram text).registry source).items = .ok items) :
    ∃ layouts, Layout.all (readProgram text).registry = .ok layouts ∧
      (∀ f, .function f ∈ source →
        ∃ formals returns body, .function ⟨escape f.name, formals, returns⟩ body ∈ items) ∧
      ∀ site ∈ allCallsOf { registry := (readProgram text).registry, layouts } source,
        site.1.registry = (readProgram text).registry ∧
        ∃ code, callCode site.1 site.2 = .ok code ∧ code ∈ Item.allParts items := by
  obtain ⟨layouts, inner, p, hlayouts, hinner, hitems, hretains, -⟩ :=
    retains_of_readProgram hread h
  refine ⟨layouts, hlayouts, ?_, ?_⟩
  · intro f hf
    obtain ⟨formals, returns, body, hmem⟩ := exists_function_of_statements hinner hf
    exact ⟨formals, returns, body, hitems ▸ mem_append_right _ hmem⟩
  · intro site hsite
    rw [Item.allParts_eq]
    obtain ⟨hregistry, code, hcode, hevery⟩ := hretains.finds (fun _ hpart => hpart) site hsite
    exact ⟨hregistry, code, hcode, hevery code code.mem_parts⟩

end Programs

end Emit

open Emit

/-- The code of a program defines each function under its name, and it holds each call by name.  A
call with the name of a function is a call of this definition, with the emitted forms of its
arguments in their order, exactly if it reaches it: no class has the name, or the function is known
to the language and keeps its name there. -/
theorem compile_calls_reach_iff {text code : String} (h : compile text = .ok code) :
    ∃ program items layouts, (readProgram text).result = .ok program ∧
      (Emit.program (readProgram text).registry program).items = .ok items ∧
      code = Item.programText items ∧ Layout.all (readProgram text).registry = .ok layouts ∧
      ∀ f, .function f ∈ program →
        (∃ formals returns body, .function ⟨escape f.name, formals, returns⟩ body ∈ items) ∧
        ∀ scope site, (scope, site) ∈
            allCallsOf { registry := (readProgram text).registry, layouts } program →
          site.call.name = f.name →
          ∃ arguments called, expressions scope site.call.arguments.values = .ok arguments ∧
            callCode scope site = .ok called ∧ called ∈ Item.allParts items ∧
            (IsCallOf (escape f.name) arguments called ↔
              reaches (readProgram text).registry site = true) := by
  obtain ⟨program, items, hread, hitems, rfl⟩ := compile_eq_ok_iff.mp h
  obtain ⟨layouts, hlayouts, hfunctions, hcalls⟩ :=
    exists_calls_of_program hread hitems
  refine ⟨program, items, layouts, hread, hitems, rfl, hlayouts, ?_⟩
  intro f hf
  refine ⟨hfunctions f hf, ?_⟩
  intro scope site hsite hname
  obtain ⟨hregistry, called, hcalled, hmem⟩ := hcalls (scope, site) hsite
  obtain ⟨arguments, harguments, hreach⟩ := exists_of_callCode hcalled
  rw [hname, hregistry] at hreach
  exact ⟨arguments, called, harguments, hcalled, hmem, hreach⟩

/-- A function with the name of a known one is defined, but not called: its call is a product. -/
theorem compile_replaces_call :
    ∃ text program layouts f scope site called,
      text = "def multiply(a, b):\n    return a - b\nx = multiply(2, 3)\n" ∧
      compile text = .ok "function multiply(a, b)\n    return a .- b\nend\n\nx = (2 .* 3)\n" ∧
      (readProgram text).result = .ok program ∧
        Layout.all (readProgram text).registry = .ok layouts ∧
      .function f ∈ program ∧
      (scope, site) ∈ allCallsOf { registry := (readProgram text).registry, layouts } program ∧
      site.call.name = f.name ∧ callCode scope site = .ok called ∧
      ∀ arguments, ¬IsCallOf (escape f.name) arguments called := by
  obtain ⟨text, htext⟩ : ∃ text, text =
      "def multiply(a, b):\n    return a - b\nx = multiply(2, 3)\n" :=
    ⟨_, rfl⟩
  have hcompile : (compile text).toOption =
      some "function multiply(a, b)\n    return a .- b\nend\n\nx = (2 .* 3)\n" := by
    subst htext
    decide +kernel
  have hvalues : ((readProgram text).result.toOption.bind fun program =>
      (Layout.all (readProgram text).registry).toOption.map fun layouts =>
        ((program.filterMap Statement.function?).map FunctionDef.name,
          (allCallsOf { registry := (readProgram text).registry, layouts } program).map fun site =>
            (site.2.call.name, (callCode site.1 site.2).toOption.map Code.text))) =
      some (["multiply"], [("multiply", some "(2 .* 3)")]) := by
    subst htext
    decide +kernel
  obtain ⟨program, hread, hvalues⟩ := Option.bind_eq_some_iff.mp hvalues
  obtain ⟨layouts, hlayouts, hvalues⟩ := Option.map_eq_some_iff.mp hvalues
  obtain ⟨hdefined, hcalls⟩ := Prod.mk.inj hvalues
  obtain ⟨f, hf, hname⟩ := mem_map.mp (hdefined ▸ mem_singleton_self "multiply")
  obtain ⟨⟨scope, site⟩, hsite, hcall⟩ := mem_map.mp (hcalls ▸ mem_singleton_self _)
  obtain ⟨hcallName, htexts⟩ := Prod.mk.inj hcall
  obtain ⟨called, hcalled, hcalledText⟩ := Option.map_eq_some_iff.mp htexts
  refine ⟨text, program, layouts, f, scope, site, called, htext, eq_ok_of_toOption hcompile,
    eq_ok_of_toOption hread, eq_ok_of_toOption hlayouts, mem_functions.mp hf, hsite,
      hcallName.trans hname.symm,
    eq_ok_of_toOption hcalled, ?_⟩
  have hescape : escape f.name = "multiply" := by
    rw [hname]
    decide
  intro arguments h
  rw [hescape] at h
  have hfirst := congrArg (·.toList.head?) (hcalledText.symm.trans h.text_eq)
  simp at hfirst

/-- A function with a reserved name and one with the name of a known function, called in the body of
a function, in the argument of another call and in a loop. -/
theorem compile_calls_reach_nested :
    ∃ text code program items layouts,
      text = "def end(x):\n    return x\ndef sum(a, b):\n    return end(a) + b\n" ++
        "for i in range(sum(1, end(2))):\n    print(end(i))\n" ∧
      compile text = .ok code ∧ code = Item.programText items ∧
      (allCallsOf { registry := (readProgram text).registry, layouts } program).map
        (·.2.call.name) =
        ["end", "range", "sum", "end", "print", "end"] ∧
      ∀ name ∈ ["end", "sum"],
        (∃ formals returns body, .function ⟨escape name, formals, returns⟩ body ∈ items) ∧
        ∀ scope site, (scope, site) ∈
            allCallsOf { registry := (readProgram text).registry, layouts } program →
          site.call.name = name →
          ∃ arguments called, expressions scope site.call.arguments.values = .ok arguments ∧
            callCode scope site = .ok called ∧ called ∈ Item.allParts items ∧
            IsCallOf (escape name) arguments called := by
  generalize htext : (_ ++ _ : String) = text
  have hvalues : (compiled? text fun program _ =>
      (Layout.all (readProgram text).registry).toOption.map fun layouts =>
        ((program.filterMap Statement.function?).map FunctionDef.name,
          (allCallsOf { registry := (readProgram text).registry, layouts } program).map fun site =>
            (site.2.call.name, reaches (readProgram text).registry site.2))) =
      some (some (["end", "sum"], [("end", true), ("range", false), ("sum", true), ("end", true),
        ("print", false), ("end", true)])) := by
    subst htext
    decide +kernel
  obtain ⟨program, items, hread, hitems, hcompile, hvalues⟩ := exists_of_compiled? hvalues
  obtain ⟨layouts, hlayouts, hvalues⟩ := Option.map_eq_some_iff.mp hvalues
  obtain ⟨hdefined, hcalls⟩ := Prod.mk.inj hvalues
  obtain ⟨program', items', layouts', hread', hitems', -, hlayouts', hreach⟩ :=
    compile_calls_reach_iff hcompile
  cases hread.symm.trans hread'
  cases hitems.symm.trans hitems'
  cases (eq_ok_of_toOption hlayouts).symm.trans hlayouts'
  refine ⟨text, _, program, items, layouts, rfl, hcompile, rfl, ?_, ?_⟩
  · have hnames := congrArg (map Prod.fst) hcalls
    rw [map_map] at hnames
    exact hnames
  · intro name hname
    have hkept : ∀ entry ∈ [("end", true), ("range", false), ("sum", true), ("end", true),
        ("print", false), ("end", true)], entry.1 ∈ ["end", "sum"] → entry.2 = true := by decide
    obtain ⟨f, hf, rfl⟩ := mem_map.mp (hdefined ▸ hname)
    obtain ⟨hfunction, hsites⟩ := hreach f (mem_functions.mp hf)
    refine ⟨hfunction, ?_⟩
    intro scope site hsite hcall
    obtain ⟨arguments, called, harguments, hcalled, hmem, hiff⟩ := hsites scope site hsite hcall
    refine ⟨arguments, called, harguments, hcalled, hmem, hiff.mpr ?_⟩
    exact hkept (site.call.name, _) (hcalls ▸ mem_map_of_mem hsite) (hcall ▸ hname)

end Offside
