/-!
# Events

What a compilation reports of its progress.
-/

namespace Offside

/-- A step of a compilation. -/
inductive Event
  /-- The text was cut into this many tokens. -/
  | tokenized (count : Nat)
  /-- A class with this many attributes is about to be registered. -/
  | registering (name : String) (superclass : Option String) (attributes : Nat)
  /-- The program was read. -/
  | parsed (statements classes : Nat)
  /-- Code is about to be emitted for a class with this many fields and methods. -/
  | lowering (name : String) (fields methods : Nat)
deriving DecidableEq, Repr, Inhabited

end Offside
