import Offside.Real.Text
import Offside.Source.Location
import Offside.Token.Keyword
import Offside.Token.Operator

/-!
# Tokens

A source text is a sequence of tokens: words, literals and marks, and the marks of the layout, which
are the end of a line and the opening and closing of an indented block.  A formatted string holds
the tokens of the expressions embedded in it.
-/

namespace Offside

mutual

/-- What a token is. -/
inductive Kind
  | indent
  | dedent
  | newline
  | endOfInput
  | identifier (name : String)
  | keyword (word : Keyword)
  | integer (value : Nat)
  | float (value : Binary64)
  | str (text : String)
  | formatted (fragments : List Fragment)
  | sumOp (op : SumOp)
  | termOp (op : TermOp)
  | power
  | comparison (op : Comparison)
  /-- An operator that no rule of the grammar uses. -/
  | operator (spelling : String)
  | delimiter (mark : Delimiter)
  /-- The qualifier of the functions of the numerical library. -/
  | library
  /-- The name of a function that is known to the language. -/
  | function (name : String)

/-- A part of a formatted string. -/
inductive Fragment
  | literal (text : String)
  /-- The tokens of an embedded expression and the end of input behind them. -/
  | embedded (tokens : List Token)

/-- A kind of token and the part of the source it stands for. -/
structure Token where
  kind : Kind
  span : Span

end

instance : Inhabited Kind := ⟨.endOfInput⟩

instance : Inhabited Fragment := ⟨.literal ""⟩

instance : Inhabited Token := ⟨⟨default, default⟩⟩

namespace Kind

/-- Whether the kind is the given delimiter. -/
def isDelimiter : Kind → Delimiter → Bool
  | delimiter mark, d => mark == d
  | _, _ => false

/-- Whether the kind is the given keyword. -/
def isKeyword : Kind → Keyword → Bool
  | keyword word, k => word == k
  | _, _ => false

/-- Whether the kind is the end of a line. -/
def isNewline : Kind → Bool
  | newline => true
  | _ => false

/-- Whether the kind is the opening of a block. -/
def isIndent : Kind → Bool
  | indent => true
  | _ => false

/-- Whether the kind is the closing of a block. -/
def isDedent : Kind → Bool
  | dedent => true
  | _ => false

/-- Whether the kind is the end of the input. -/
def isEnd : Kind → Bool
  | endOfInput => true
  | _ => false

/-- Whether the kind is the power operator. -/
def isPower : Kind → Bool
  | power => true
  | _ => false

/-- The comparison, if the kind is one. -/
def comparison? : Kind → Option Comparison
  | comparison op => some op
  | _ => none

/-- The sum operator, if the kind is one. -/
def sumOp? : Kind → Option SumOp
  | sumOp op => some op
  | _ => none

/-- The product operator, if the kind is one. -/
def termOp? : Kind → Option TermOp
  | termOp op => some op
  | _ => none

/-- How the kind is named in messages. -/
def describe : Kind → String
  | indent => "indent"
  | dedent => "dedent"
  | newline => "newline"
  | endOfInput => "end of input"
  | identifier _ => "identifier"
  | keyword word => "keyword '" ++ word.spelling ++ "'"
  | integer value => "integer " ++ toString value
  | float value => "float " ++ value.text
  | str _ => "string literal"
  | formatted _ => "f-string"
  | sumOp op => "'" ++ op.spelling ++ "'"
  | termOp op => "'" ++ op.spelling ++ "'"
  | power => "'**'"
  | comparison op => "'" ++ op.spelling ++ "'"
  | operator spelling => "'" ++ spelling ++ "'"
  | delimiter mark => "'" ++ mark.spelling ++ "'"
  | library => "'np'"
  | function name => "function '" ++ name ++ "'"

end Kind

/-- A token without width. -/
def Token.mark (kind : Kind) (location : Location) : Token where
  kind := kind
  span := .empty location

end Offside
