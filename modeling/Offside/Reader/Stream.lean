import Offside.Token.Basic

/-!
# Token streams

The tokens that are left to read.  There always is a current token, and the last one is the end of
input, which is never passed.
-/

namespace Offside

/-- A place in a list of tokens. -/
structure TokenStream where
  current : Token
  upcoming : List Token
  /-- Where the token before the current one stops. -/
  previousStop : Option Location := none

namespace TokenStream

/-- The stream of a list of tokens.  The end of input is added if it is not the last of them. -/
def ofTokens : List Token → TokenStream
  | [] => ⟨.mark .endOfInput {}, [], none⟩
  | first :: rest =>
    let last := rest.getLastD first
    ⟨first, if last.kind.isEnd then rest else rest ++ [.mark .endOfInput last.span.stop], none⟩

/-- The tokens that are left, the current one first. -/
def toList (s : TokenStream) : List Token := s.current :: s.upcoming

/-- The number of tokens that are left. -/
def size (s : TokenStream) : Nat := s.upcoming.length + 1

/-- The kind of the current token. -/
def peek (s : TokenStream) : Kind := s.current.kind

/-- The kind of the token some places on, or of the last one. -/
def peekAt (s : TokenStream) (n : Nat) : Kind :=
  (s.toList[n]?.getD (s.upcoming.getLastD s.current)).kind

/-- Passes the current token, unless it is the last one. -/
def advance (s : TokenStream) : TokenStream :=
  match s.upcoming with
  | [] => s
  | next :: rest => ⟨next, rest, s.current.span.stop⟩

/-- Where the current token starts. -/
def location (s : TokenStream) : Location := s.current.span.start

/-- Where the token before the current one stops.  At the first token this is where it starts. -/
def stop (s : TokenStream) : Location := s.previousStop.getD s.location

/-- Whether an assignment stands outside brackets on the line that the tokens start with. -/
def hasAssignment (depth : Nat) : List Token → Bool
  | [] => false
  | token :: rest =>
    match token.kind with
    | .newline | .endOfInput => false
    | .delimiter mark =>
      depth == 0 && mark.isAssignment || hasAssignment (mark.depthAfter depth) rest
    | _ => hasAssignment depth rest

/-- Whether an assignment stands outside brackets on the rest of the line. -/
def lineHasAssignment (s : TokenStream) : Bool := hasAssignment 0 s.toList

end TokenStream

mutual

/-- The number of tokens in a token, those of embedded expressions included. -/
def Token.weight : Token → Nat
  | ⟨kind, _⟩ => kind.weight + 1

/-- The number of tokens embedded in a kind. -/
def Kind.weight : Kind → Nat
  | .formatted fragments => Fragment.totalWeight fragments
  | _ => 0

/-- The number of tokens embedded in some fragments. -/
def Fragment.totalWeight : List Fragment → Nat
  | [] => 0
  | fragment :: rest => fragment.weight + Fragment.totalWeight rest

/-- The number of tokens embedded in a fragment, and one more for the end of input. -/
def Fragment.weight : Fragment → Nat
  | .literal _ => 0
  | .embedded tokens => Token.totalWeight tokens + 1

/-- The number of tokens in some tokens. -/
def Token.totalWeight : List Token → Nat
  | [] => 0
  | token :: rest => token.weight + Token.totalWeight rest

end

/-- The number of tokens that are left, those of embedded expressions included. -/
def TokenStream.weight (s : TokenStream) : Nat := Token.totalWeight s.toList

end Offside
