/-!
# Ranges of code points

A property of characters is given by the list of the maximal ranges of code points that have it, and
a table stores the lengths of these ranges and of the gaps before them.  The tables follow version
17 of the Unicode standard.
-/

namespace Offside.Text

/-- The code points from `first` to `last`, both included. -/
structure CodeRange where
  first : Nat
  last : Nat

namespace CodeRange

/-- The ranges from a code point on whose gaps and lengths are listed in turn. -/
def ofRunsFrom (start : Nat) : List Nat → List CodeRange
  | gap :: length :: runs =>
    ⟨start + gap, start + gap + length - 1⟩ :: ofRunsFrom (start + gap + length) runs
  | _ => []

/-- The ranges that a table stores. -/
def ofRuns (runs : List Nat) : List CodeRange := ofRunsFrom 0 runs

/-- Whether the code point of `c` lies in the range. -/
def contains (r : CodeRange) (c : Char) : Bool :=
  r.first ≤ c.toNat && c.toNat ≤ r.last

theorem contains_iff (r : CodeRange) (c : Char) :
    r.contains c = true ↔ r.first ≤ c.toNat ∧ c.toNat ≤ r.last := by
  simp [contains]

end CodeRange

end Offside.Text
