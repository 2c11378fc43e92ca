import Offside.Proofs.Traversal
import Offside.Target.Item

/-!
# Paths through emitted code

How a run through some items can end, whatever the conditions in them and the sequences of their
loops are.  The returns of a body are those that end a run of it: a function that is defined in it
has its own.  Every path that returns does so by one of them (`Item.returned_subset_of_allEnd`), and
no path goes on behind a return (`Item.ne_falls_of_allEnd`).
-/

namespace Offside.Target

open List

/-! ## Runs -/

/-- How a run through some items ends. -/
inductive Exit
  /-- What is behind the items comes next. -/
  | falls
  /-- The loop around the items is left. -/
  | breaks
  /-- The loop around the items goes on with its next turn. -/
  | continues
  /-- The function around the items returns. -/
  | returns (values : List Code)

/-- Whether every run through an item goes on behind it.  The definition of a function is not a run
through its body. -/
def Item.isPassed : Item → Bool
  | .blank | .library _ | .expressions _ | .globals _ | .assign _ _ _ _ | .function _
    _ | .equation _ _
  | .abstractType _ _ | .record _ _ _ => true
  | .returns _ | .breaks | .continues | .conditional _ _ _ | .forLoop _ _ _ | .whileLoop _ _ =>
    false

mutual

/-- A run through an item can end in the given way. -/
inductive Item.Ends : Item → Exit → Prop
  | passed {item : Item} (h : item.isPassed = true) : Item.Ends item .falls
  | returns (values : List Code) : Item.Ends (.returns values) (.returns values)
  | breaks : Item.Ends .breaks .breaks
  | continues : Item.Ends .continues .continues
  | holds (condition : Code) {body : List Item} (alternative : Alternative) {exit : Exit}
      (h : Item.AllEnd body exit) : Item.Ends (.conditional condition body alternative) exit
  | fails (condition : Code) (body : List Item) {alternative : Alternative} {exit : Exit}
      (h : alternative.Ends exit) : Item.Ends (.conditional condition body alternative) exit
  | forLoop (target : String) (iterable : Code) {body : List Item} {exit : Exit}
      (h : Item.Turns body exit) : Item.Ends (.forLoop target iterable body) exit
  | whileLoop (condition : Code) {body : List Item} {exit : Exit} (h : Item.Turns body exit) :
      Item.Ends (.whileLoop condition body) exit

/-- A run through an alternative can end in the given way. -/
inductive Alternative.Ends : Alternative → Exit → Prop
  | nothing : Alternative.Ends .nothing .falls
  | holds (condition : Code) {body : List Item} (alternative : Alternative) {exit : Exit}
      (h : Item.AllEnd body exit) : Alternative.Ends (.branch condition body alternative) exit
  | fails (condition : Code) (body : List Item) {alternative : Alternative} {exit : Exit}
      (h : alternative.Ends exit) : Alternative.Ends (.branch condition body alternative) exit
  | block {body : List Item} {exit : Exit} (h : Item.AllEnd body exit) :
    Alternative.Ends (.block body) exit

/-- The turns of a loop can end the loop in the given way. -/
inductive Item.Turns : List Item → Exit → Prop
  | done (body : List Item) : Item.Turns body .falls
  | falls {body : List Item} {exit : Exit} (h : Item.AllEnd body .falls)
    (hmore : Item.Turns body exit) :
      Item.Turns body exit
  | continues {body : List Item} {exit : Exit} (h : Item.AllEnd body .continues)
      (hmore : Item.Turns body exit) : Item.Turns body exit
  | breaks {body : List Item} (h : Item.AllEnd body .breaks) : Item.Turns body .falls
  | returns {body : List Item} {values : List Code} (h : Item.AllEnd body (.returns values)) :
      Item.Turns body (.returns values)

/-- A run through some items can end in the given way. -/
inductive Item.AllEnd : List Item → Exit → Prop
  | nil : Item.AllEnd [] .falls
  | next {item : Item} {rest : List Item} {exit : Exit} (h : item.Ends .falls)
      (hrest : Item.AllEnd rest exit) : Item.AllEnd (item :: rest) exit
  | stop {item : Item} (rest : List Item) {exit : Exit} (h : item.Ends exit)
    (hexit : exit ≠ .falls) :
      Item.AllEnd (item :: rest) exit

end

/-! ## Returns -/

mutual

/-- The values of the returns in an item. -/
def Item.returned : Item → List (List Code)
  | .returns values => [values]
  | .conditional _ body alternative => Item.allReturned body ++ alternative.returned
  | .forLoop _ _ body | .whileLoop _ body => Item.allReturned body
  | .blank | .library _ | .expressions _ | .breaks | .continues | .globals _ | .assign _ _ _ _
  | .function _ _ | .equation _ _ | .abstractType _ _ | .record _ _ _ => []

/-- The values of the returns in an alternative. -/
def Alternative.returned : Alternative → List (List Code)
  | .nothing => []
  | .branch _ body alternative => Item.allReturned body ++ alternative.returned
  | .block body => Item.allReturned body

/-- The values of the returns in some items. -/
def Item.allReturned : List Item → List (List Code)
  | [] => []
  | item :: rest => item.returned ++ Item.allReturned rest

end

attribute [simp] Item.allReturned

@[simp] theorem Item.allReturned_append (items items' : List Item) :
    Item.allReturned (items ++ items') = Item.allReturned items ++ Item.allReturned items' :=
  append_of_cons rfl (fun _ _ => rfl) items items'

/-- The values of the return that a run ends with. -/
def Exit.returned : Exit → List (List Code)
  | returns values => [values]
  | falls | breaks | continues => []

mutual

theorem Item.returned_subset_of_ends :
    ∀ {item : Item} {exit : Exit}, item.Ends exit → exit.returned ⊆ item.returned
  | _, _, .passed _ | _, _, .breaks | _, _, .continues => nil_subset _
  | _, _, .returns _ => List.Subset.refl _
  | _, _, .holds _ _ h => fun _ hv => mem_append_left _ (Item.returned_subset_of_allEnd h hv)
  | _, _, .fails _ _ h => fun _ hv => mem_append_right _ (Alternative.returned_subset_of_ends h hv)
  | _, _, .forLoop _ _ h | _, _, .whileLoop _ h => Item.returned_subset_of_turns h

theorem Alternative.returned_subset_of_ends : ∀ {alternative : Alternative} {exit : Exit},
    alternative.Ends exit → exit.returned ⊆ alternative.returned
  | _, _, .nothing => nil_subset _
  | _, _, .holds _ _ h => fun _ hv => mem_append_left _ (Item.returned_subset_of_allEnd h hv)
  | _, _, .fails _ _ h => fun _ hv => mem_append_right _ (Alternative.returned_subset_of_ends h hv)
  | _, _, .block h => Item.returned_subset_of_allEnd h

theorem Item.returned_subset_of_turns : ∀ {body : List Item} {exit : Exit}, Item.Turns body exit →
    exit.returned ⊆ Item.allReturned body
  | _, _, .done _ | _, _, .breaks _ => nil_subset _
  | _, _, .falls _ hmore | _, _, .continues _ hmore => Item.returned_subset_of_turns hmore
  | _, _, .returns h => Item.returned_subset_of_allEnd h

/-- A path that returns ends at one of the returns. -/
theorem Item.returned_subset_of_allEnd :
    ∀ {items : List Item} {exit : Exit}, Item.AllEnd items exit →
    exit.returned ⊆ Item.allReturned items
  | _, _, .nil => nil_subset _
  | _, _, .next _ hrest => fun _ hv => mem_append_right _ (Item.returned_subset_of_allEnd hrest hv)
  | _, _, .stop _ h _ => fun _ hv => mem_append_left _ (Item.returned_subset_of_ends h hv)

end

/-- No path goes on behind a return. -/
theorem Item.ne_falls_of_allEnd {items : List Item} {values : List Code} {exit : Exit}
    (hlast : items.getLast? = some (.returns values)) (h : Item.AllEnd items exit) :
    exit ≠ .falls := by
  induction items with
  | nil => cases hlast
  | cons item rest ih =>
    cases h with
    | stop _ _ hexit => exact hexit
    | next hitem hrest =>
      cases rest with
      | nil =>
        -- the return itself would have to be passed
        cases hlast
        cases hitem with
        | passed hpassed => cases hpassed
      | cons next rest =>
        rw [getLast?_cons_cons] at hlast
        exact ih hlast hrest

/-- The values of a return at the end are returned. -/
theorem Item.mem_allReturned_of_getLast? {items : List Item} {values : List Code}
    (h : items.getLast? = some (.returns values)) : values ∈ Item.allReturned items := by
  obtain ⟨front, rfl⟩ := getLast?_eq_some_iff.mp h
  simp [Item.returned]

end Offside.Target
