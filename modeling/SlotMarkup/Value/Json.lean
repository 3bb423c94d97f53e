import SlotMarkup.Json
import SlotMarkup.Value.Basic

/-!
# Values in JSON

The JSON document of a value (`Value.toJson`). Every node has the same ten
fields, those of the renderer's objects always null. A handler is written as its
name, and what has no form of its own is null: nothing, nameless handlers and the
renderer's objects.
-/

namespace SlotMarkup.Value

mutual

/-- The JSON document of a value. -/
def toJson : Value → Json
  | undefined | null | foreign _ => .null
  | bool b => .bool b
  | number x => .number x
  | str s => .string s
  | list items => .array (listToJson items)
  | dict entries => .object (entriesToJson entries)
  | handler h => .ofOption .string h.name?
  | node ⟨tag, key, attrs, children, reserved⟩ =>
    .object
      [("tag", .ofOption .string tag),
       ("key", keyToJson key),
       ("attrs", attrsToJson attrs),
       ("children", childrenToJson children),
       ("text", .ofOption .string reserved.text),
       ("dom", .null),
       ("domSize", .ofOption .nat reserved.domSize),
       ("state", .null),
       ("events", .null),
       ("instance", .null)]

/-- The documents of the values of a list. -/
def listToJson : List Value → List Json
  | [] => []
  | v :: vs => toJson v :: listToJson vs

/-- The documents of the values of a dictionary, under their names. -/
def entriesToJson : List (String × Value) → List (String × Json)
  | [] => []
  | (name, v) :: entries => (name, toJson v) :: entriesToJson entries

/-- The document of a key. -/
def keyToJson : Option Value → Json
  | none => .null
  | some v => toJson v

/-- The document of attributes. -/
def attrsToJson : Option (List (String × Value)) → Json
  | none => .null
  | some entries => .object (entriesToJson entries)

/-- The document of the content of a node. -/
def childrenToJson : Option (Children Value) → Json
  | none => .null
  | some (.text s) => .string s
  | some (.list items) => .array (listToJson items)

end

end SlotMarkup.Value
