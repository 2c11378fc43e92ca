/-!
# Operators and delimiters

The marks between words: the operators of each level of the grammar, the assignments, and the
brackets and separators.
-/

namespace Offside

/-- The operators of sums, which are signs too. -/
inductive SumOp
  | add
  | sub
deriving DecidableEq, Repr, Inhabited

/-- The spelling of a sum operator. -/
def SumOp.spelling : SumOp → String
  | add => "+"
  | sub => "-"

/-- The operators of products. -/
inductive TermOp
  | mul
  | div
  | floorDiv
  | mod
deriving DecidableEq, Repr, Inhabited

/-- The spelling of a product operator. -/
def TermOp.spelling : TermOp → String
  | mul => "*"
  | div => "/"
  | floorDiv => "//"
  | mod => "%"

/-- The comparisons. -/
inductive Comparison
  | equal
  | notEqual
  | less
  | greater
  | lessEqual
  | greaterEqual
deriving DecidableEq, Repr, Inhabited

/-- The spelling of a comparison. -/
def Comparison.spelling : Comparison → String
  | equal => "=="
  | notEqual => "!="
  | less => "<"
  | greater => ">"
  | lessEqual => "<="
  | greaterEqual => ">="

/-- The operators of augmented assignments. -/
inductive AugmentedOp
  | add | sub | mul | div | floorDiv | mod | pow
  | matMul | bitAnd | bitOr | bitXor | shiftLeft | shiftRight
deriving DecidableEq, Repr, Inhabited

/-- The spelling of an augmented assignment. -/
def AugmentedOp.spelling : AugmentedOp → String
  | add => "+="
  | sub => "-="
  | mul => "*="
  | div => "/="
  | floorDiv => "//="
  | mod => "%="
  | pow => "**="
  | matMul => "@="
  | bitAnd => "&="
  | bitOr => "|="
  | bitXor => "^="
  | shiftLeft => "<<="
  | shiftRight => ">>="

/-- Brackets, separators and assignments. -/
inductive Delimiter
  | parenOpen | parenClose
  | bracketOpen | bracketClose
  | braceOpen | braceClose
  | comma | colon | dot | semicolon
  | assign | arrow
  | augmented (op : AugmentedOp)
deriving DecidableEq, Repr, Inhabited

namespace Delimiter

/-- The spelling of a delimiter. -/
def spelling : Delimiter → String
  | parenOpen => "("
  | parenClose => ")"
  | bracketOpen => "["
  | bracketClose => "]"
  | braceOpen => "\x7b"
  | braceClose => "\x7d"
  | comma => ","
  | colon => ":"
  | dot => "."
  | semicolon => ";"
  | assign => "="
  | arrow => "->"
  | augmented op => op.spelling

/-- Whether the delimiter opens a bracket. -/
def isOpening : Delimiter → Bool
  | parenOpen | bracketOpen | braceOpen => true
  | _ => false

/-- Whether the delimiter closes a bracket. -/
def isClosing : Delimiter → Bool
  | parenClose | bracketClose | braceClose => true
  | _ => false

/-- Whether the delimiter is an assignment, plain or augmented. -/
def isAssignment : Delimiter → Bool
  | assign | augmented _ => true
  | _ => false

/-- The bracket depth behind the delimiter.  A closing bracket without an opening one does not
count. -/
def depthAfter (d : Delimiter) (depth : Nat) : Nat :=
  if d.isOpening then depth + 1 else if d.isClosing then depth - 1 else depth

end Delimiter

end Offside
