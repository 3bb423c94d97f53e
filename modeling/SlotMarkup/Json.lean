import SlotMarkup.Decimal.Positional

/-!
# JSON

A JSON document (`Json`) and its compact text (`Json.text`): no spaces, fields in
their order, and of the characters of a string only those escaped that have to
be.
-/

namespace SlotMarkup

/-- A JSON document. -/
inductive Json
  | null
  | bool (b : Bool)
  | nat (n : Nat)
  | number (x : Float)
  | string (s : String)
  | array (items : List Json)
  | object (fields : List (String × Json))
  deriving Inhabited

namespace Json

/-- A character of a string. Quotes, backslashes and controls are escaped, by a
    letter where there is one and by their number otherwise. -/
def escapeChar (c : Char) : List Char :=
  if c = '"' then ['\\', '"']
  else if c = '\\' then ['\\', '\\']
  else if c = '\x08' then ['\\', 'b']
  else if c = '\x0c' then ['\\', 'f']
  else if c = '\n' then ['\\', 'n']
  else if c = '\r' then ['\\', 'r']
  else if c = '\t' then ['\\', 't']
  else if c.toNat < 0x20 then
    ['\\', 'u', '0', '0', Nat.digitChar (c.toNat / 16), Nat.digitChar (c.toNat % 16)]
  else [c]

/-- A string in quotes. -/
def quote (s : String) : String :=
  String.ofList ('"' :: (s.toList.flatMap escapeChar ++ ['"']))

mutual

/-- The compact text of a document. -/
def text : Json → String
  | null => "null"
  | bool b => if b then "true" else "false"
  | nat n => toString n
  | number x => NumberStyle.json.text x
  | string s => quote s
  | array items => "[" ++ ",".intercalate (itemTexts items) ++ "]"
  | object fields => "\x7b" ++ ",".intercalate (fieldTexts fields) ++ "\x7d"

/-- The texts of the items of an array. -/
def itemTexts : List Json → List String
  | [] => []
  | j :: js => text j :: itemTexts js

/-- The texts of the fields of an object. -/
def fieldTexts : List (String × Json) → List String
  | [] => []
  | (name, j) :: fields => (quote name ++ ":" ++ text j) :: fieldTexts fields

end

/-- The document of what may be absent. -/
def ofOption {α : Type} (f : α → Json) : Option α → Json
  | none => null
  | some a => f a

end Json

end SlotMarkup
