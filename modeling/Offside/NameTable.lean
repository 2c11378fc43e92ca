/-!
# Name tables

The identifiers of a text are entered in a table as they are met.  The handle of a name is its place
in the table; the table only grows, at its end, so a handle keeps its name.
-/

namespace Offside

/-- The names met so far, in the order in which they were first met. -/
structure NameTable where
  names : List String := []
deriving DecidableEq, Repr, Inhabited

namespace NameTable

/-- The table without names. -/
def empty : NameTable := {}

/-- The number of names. -/
def size (t : NameTable) : Nat := t.names.length

/-- The handle of a name that was met before. -/
def handle? (t : NameTable) (name : String) : Option Nat := t.names.idxOf? name

/-- The name of a handle. -/
def resolve? (t : NameTable) (handle : Nat) : Option String := t.names[handle]?

/-- Enters a name, if it is new. -/
def intern (t : NameTable) (name : String) : NameTable :=
  if name ∈ t.names then t else ⟨t.names ++ [name]⟩

/-- The handle that `name` has once it is entered. -/
def handle (t : NameTable) (name : String) : Nat := t.names.idxOf name

@[simp] theorem names_empty : empty.names = [] := rfl

theorem intern_eq_self {t : NameTable} {name : String} (h : name ∈ t.names) :
    t.intern name = t := if_pos h

theorem names_intern_of_notMem {t : NameTable} {name : String} (h : name ∉ t.names) :
    (t.intern name).names = t.names ++ [name] := by
  simp [intern, h]

theorem mem_names_intern (t : NameTable) (name : String) : name ∈ (t.intern name).names := by
  by_cases h : name ∈ t.names
  · rwa [intern_eq_self h]
  · simp [names_intern_of_notMem h]

/-- The names of a table are the first names of every table it grows into. -/
theorem names_prefix_intern (t : NameTable) (name : String) :
    t.names <+: (t.intern name).names := by
  by_cases h : name ∈ t.names
  · exact (intern_eq_self h).symm ▸ List.prefix_rfl
  · rw [names_intern_of_notMem h]
    exact List.prefix_append _ _

end NameTable

end Offside
