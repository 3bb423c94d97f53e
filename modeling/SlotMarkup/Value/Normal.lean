import SlotMarkup.Value.Text

/-!
# Values as nodes

A value in the place of a node is first brought into a form that can stand there
(`Value.normalize`): nothing becomes null, text a text node, and a list a
fragment of its normalized items. All else is left as it is, nodes included.
-/

namespace SlotMarkup.Value

mutual

/-- The form in which a value stands in the place of a node. -/
def normalize : Value → Value
  | undefined | null | bool _ => null
  | str s => node (Node.text s)
  | number x => node (Node.text (NumberStyle.display.text x))
  | list items => node (Node.fragment (normalizeAll items))
  | dict entries => dict entries
  | handler h => handler h
  | node n => node n
  | foreign identity => foreign identity

/-- Normalizes every value of a list. -/
def normalizeAll : List Value → List Value
  | [] => []
  | v :: vs => normalize v :: normalizeAll vs

end

/-- A list is normalized element by element. -/
theorem normalizeAll_eq_map (vs : List Value) : normalizeAll vs = vs.map normalize := by
  induction vs with
  | nil => rfl
  | cons v vs ih => rw [normalizeAll, ih, List.map_cons]

end SlotMarkup.Value
