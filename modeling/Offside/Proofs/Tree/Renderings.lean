import Offside.Proofs.Tree.WellFormed

/-!
# The renderings of an expression

The tokens that the grammar allows for an expression.  Operators, operands, accesses and slices
stand from left to right as they do in the tree, and an operand never has a looser operator than its
place allows, so the tree is the only way to read the operators.

An expression has more than one rendering, where the grammar leaves a choice that the tree does not
keep: a name may be spelled by the token of a known function, a comma may stand behind the last
argument of a call and the last element of a list, a second colon may stand in a slice without a
step, and a call of a method of a superclass may have a second argument, which is dropped.  An
embedded expression is rendered by the tokens before the end of its input.
-/

namespace Offside

/-- A token that stands for a name: an identifier, or a known function that is used as a name. -/
inductive Kind.Spells (name : String) : Kind → Prop
  | identifier : Spells name (.identifier name)
  | function : Spells name (.function name)

/-- Whether the tokens are a single word that would be taken for the function of a call. -/
def Kind.areCallWord : List Kind → Bool
  | [.function _] => true
  | [.identifier name] => name == "super"
  | _ => false

mutual

/-- The tokens of operators and operands.  The numbers are the levels of the operands. -/
inductive Expr.Renders : Expr → List Kind → Prop
  | or {first : Expr} {rest : List Expr} {ks more : List Kind} (hlevel : 1 ≤ first.rank)
    (hfirst : first.Renders ks) (hne : rest ≠ [])
    (hrest : Expr.Chains 1 (fun _ => .keyword .orKw) (rest.map fun e => ((), e)) more) :
    (Expr.or first rest).Renders (ks ++ more)
  | and {first : Expr} {rest : List Expr} {ks more : List Kind} (hlevel : 2 ≤ first.rank)
    (hfirst : first.Renders ks) (hne : rest ≠ [])
    (hrest : Expr.Chains 2 (fun _ => .keyword .andKw) (rest.map fun e => ((), e)) more) :
    (Expr.and first rest).Renders (ks ++ more)
  | not {operand : Expr} {ks : List Kind} (hlevel : 2 ≤ operand.rank) (h : operand.Renders ks) :
    (Expr.not operand).Renders (.keyword .notKw :: ks)
  | compare {first : Expr} {rest : List (Comparison × Expr)} {ks more : List Kind}
    (hlevel : 4 ≤ first.rank) (hfirst : first.Renders ks) (hne : rest ≠ [])
    (hrest : Expr.Chains 4 Kind.comparison rest more) :
    (Expr.compare first rest).Renders (ks ++ more)
  | sum {first : Expr} {rest : List (SumOp × Expr)} {ks more : List Kind} (hlevel : 5 ≤ first.rank)
    (hfirst : first.Renders ks) (hne : rest ≠ []) (hrest : Expr.Chains 5 Kind.sumOp rest more) :
    (Expr.sum first rest).Renders (ks ++ more)
  | product {first : Expr} {rest : List (TermOp × Expr)} {ks more : List Kind}
    (hlevel : 6 ≤ first.rank)
    (hfirst : first.Renders ks) (hne : rest ≠ []) (hrest : Expr.Chains 6 Kind.termOp rest more) :
    (Expr.product first rest).Renders (ks ++ more)
  | sign {op : SumOp} {operand : Expr} {ks : List Kind} (hlevel : 6 ≤ operand.rank)
    (h : operand.Renders ks) : (Expr.sign op operand).Renders (.sumOp op :: ks)
  | power {base : Primary} {exponent : Expr} {ks more : List Kind} (hbase : base.Renders ks)
    (hlevel : 6 ≤ exponent.rank) (hexponent : exponent.Renders more) :
    (Expr.power base exponent).Renders (ks ++ Kind.power :: more)
  | primary {operand : Primary} {ks : List Kind} (h : operand.Renders ks) :
    (Expr.primary operand).Renders ks

/-- The tokens of operands of one level, each behind the token of its operator. -/
inductive Expr.Chains :
    {β : Type} → (level : Nat) → (token : β → Kind) → List (β × Expr) → List Kind → Prop
  | nil {β : Type} {level : Nat} {token : β → Kind} : Expr.Chains level token [] []
  | cons {β : Type} {level : Nat} {token : β → Kind} {op : β} {e : Expr} {rest : List (β × Expr)}
    {ks more : List Kind} (hlevel : level ≤ e.rank) (h : e.Renders ks)
    (hrest : Expr.Chains level token rest more) :
    Expr.Chains level token ((op, e) :: rest) (token op :: (ks ++ more))

/-- The tokens of an expression. -/
inductive Expression.Renders : Expression → List Kind → Prop
  | mk {tree : Expr} {span : Span} {ks : List Kind} (h : tree.Renders ks) :
    (Expression.mk tree span).Renders ks

/-- The tokens of an expression that may be left out. -/
inductive Expression.MayRender : Option Expression → List Kind → Prop
  | none : Expression.MayRender none []
  | some {e : Expression} {ks : List Kind} (h : e.Renders ks) : Expression.MayRender (some e) ks

/-- The tokens of expressions with commas between them, and perhaps one behind the last. -/
inductive Expression.Items : List Expression → List Kind → Prop
  | nil : Expression.Items [] []
  | last {e : Expression} {ks : List Kind} (h : e.Renders ks) : Expression.Items [e] ks
  | cons {e : Expression} {es : List Expression} {ks more : List Kind} (h : e.Renders ks)
    (hrest : Expression.Items es more) :
    Expression.Items (e :: es) (ks ++ Kind.delimiter .comma :: more)

/-- The tokens of an atom and of what is accessed through it. -/
inductive Primary.Renders : Primary → List Kind → Prop
  | mk {atom : Atom} {trailers : List Trailer} {span : Span} {ks more : List Kind}
    (hatom : atom.Renders ks)
    (htrailers : Trailer.AllRender trailers more)
    (hcall : Kind.areCallWord ks = true → more.head? ≠ some (.delimiter .parenOpen)) :
    (Primary.mk atom trailers span).Renders (ks ++ more)

/-- The tokens of an atom. -/
inductive Atom.Renders : Atom → List Kind → Prop
  | name {name : String} {k : Kind} (hk : k.Spells name) : (Atom.name name).Renders [k]
  | boolean (value : Bool) :
    (Atom.boolean value).Renders [.keyword (if value then .trueKw else .falseKw)]
  | none : Atom.none.Renders [.keyword .noneKw]
  | integer (value : Nat) : (Atom.integer value).Renders [.integer value]
  | float (value : Binary64) : (Atom.float value).Renders [.float value]
  | str (text : String) : (Atom.str text).Renders [.str text]
  | formatted {parts : List FormattedPart} {fragments : List Fragment}
    (h : FormattedPart.AllRender parts fragments) :
    (Atom.formatted parts).Renders [.formatted fragments]
  | group {inner : Expression} {ks : List Kind} (h : inner.Renders ks) :
    (Atom.group inner).Renders (.delimiter .parenOpen :: (ks ++ [Kind.delimiter .parenClose]))
  | list {elements : List Expression} {ks : List Kind} (h : Expression.Items elements ks) :
    (Atom.list elements).Renders (.delimiter .bracketOpen :: (ks ++ [Kind.delimiter .bracketClose]))
  | library {name : String} {arguments : Arguments} {span : Span} {k : Kind} {ks : List Kind}
    (hk : k.Spells name) (h : arguments.Renders ks) :
    (Atom.library ⟨name, arguments, span⟩).Renders (.library :: .delimiter .dot :: k :: ks)
  | builtin {name : String} {arguments : Arguments} {span : Span} {ks : List Kind}
    (h : arguments.Renders ks) :
    (Atom.builtin ⟨name, arguments, span⟩).Renders (.function name :: ks)
  | super {call : SuperCall} {ks : List Kind} (h : call.Renders ks) : (Atom.super call).Renders ks

/-- The fragments of the parts of a formatted string. -/
inductive FormattedPart.AllRender : List FormattedPart → List Fragment → Prop
  | nil : FormattedPart.AllRender [] []
  | literal {text : String} {parts : List FormattedPart} {fragments : List Fragment}
    (hrest : FormattedPart.AllRender parts fragments) :
    FormattedPart.AllRender (.literal text :: parts) (.literal text :: fragments)
  | embedded {e : Expression} {tokens : List Token} {parts : List FormattedPart}
    {fragments : List Fragment}
    (h : e.Renders ((tokens.takeWhile fun t => !t.kind.isEnd).map Token.kind))
    (hrest : FormattedPart.AllRender parts fragments) :
    FormattedPart.AllRender (.embedded e :: parts) (.embedded tokens :: fragments)

/-- The tokens of an access. -/
inductive Trailer.Renders : Trailer → List Kind → Prop
  | member {name : String} {span : Span} {k : Kind} (hk : k.Spells name) :
    (Trailer.member name span).Renders [.delimiter .dot, k]
  | call {arguments : Arguments} {ks : List Kind} (h : arguments.Renders ks) :
    (Trailer.call arguments).Renders ks
  | subscript {slices : List Slice} {ks : List Kind} (h : Slice.Items slices ks) :
    (Trailer.subscript slices).Renders
      (.delimiter .bracketOpen :: (ks ++ [Kind.delimiter .bracketClose]))

/-- The tokens of some accesses. -/
inductive Trailer.AllRender : List Trailer → List Kind → Prop
  | nil : Trailer.AllRender [] []
  | cons {trailer : Trailer} {rest : List Trailer} {ks more : List Kind} (h : trailer.Renders ks)
    (hrest : Trailer.AllRender rest more) : Trailer.AllRender (trailer :: rest) (ks ++ more)

/-- The tokens of a part of a subscript. -/
inductive Slice.Renders : Slice → List Kind → Prop
  | index {e : Expression} {ks : List Kind} (h : e.Renders ks) : (Slice.index e).Renders ks
  | short {lower upper : Option Expression} {ks more : List Kind}
    (hlower : Expression.MayRender lower ks)
    (hupper : Expression.MayRender upper more) :
    (Slice.range lower upper none).Renders (ks ++ Kind.delimiter .colon :: more)
  | long {lower upper step : Option Expression} {ks more last : List Kind}
    (hlower : Expression.MayRender lower ks) (hupper : Expression.MayRender upper more)
    (hstep : Expression.MayRender step last) :
    (Slice.range lower upper step).Renders
      (ks ++ Kind.delimiter .colon :: (more ++ Kind.delimiter .colon :: last))

/-- The tokens of at least one part of a subscript, with commas between them. -/
inductive Slice.Items : List Slice → List Kind → Prop
  | last {slice : Slice} {ks : List Kind} (h : slice.Renders ks) : Slice.Items [slice] ks
  | cons {slice : Slice} {slices : List Slice} {ks more : List Kind} (h : slice.Renders ks)
    (hrest : Slice.Items slices more) :
    Slice.Items (slice :: slices) (ks ++ Kind.delimiter .comma :: more)

/-- The tokens of the arguments of a call. -/
inductive Arguments.Renders : Arguments → List Kind → Prop
  | mk {values : List Expression} {span : Span} {ks : List Kind} (h : Expression.Items values ks) :
    (Arguments.mk values span).Renders
      (.delimiter .parenOpen :: (ks ++ [Kind.delimiter .parenClose]))

/-- The tokens of a call of a method of a superclass. -/
inductive SuperCall.Renders : SuperCall → List Kind → Prop
  | mk {superclass : Option String} {method : String} {arguments : Arguments}
    {span : Span} {k : Kind}
    {ks more : List Kind} (hsuperclass : SuperCall.Names superclass ks) (hk : k.Spells method)
    (h : arguments.Renders more) :
    (SuperCall.mk superclass method arguments span).Renders
      (.identifier "super" :: .delimiter .parenOpen ::
      (ks ++ Kind.delimiter .parenClose :: .delimiter .dot :: k :: more))

/-- The tokens between the parentheses behind `super`: nothing, or the superclass and perhaps an
expression, which the tree does not keep. -/
inductive SuperCall.Names : Option String → List Kind → Prop
  | none : SuperCall.Names none []
  | named {name : String} {k : Kind} (hk : k.Spells name) : SuperCall.Names (some name) [k]
  | dropped {name : String} {k : Kind} {e : Expression} {ks : List Kind} (hk : k.Spells name)
    (h : e.Renders ks) : SuperCall.Names (some name) (k :: .delimiter .comma :: ks)

end

end Offside
