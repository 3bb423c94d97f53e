import SlotMarkup.Decimal.Positional
import SlotMarkup.Value.Basic

/-!
# Text of values

Strings and numbers stand for text (`Value.text?`); no other value does.
-/

namespace SlotMarkup.Value

/-- The text that a string or a number stands for. -/
def text? : Value → Option String
  | str s => some s
  | number x => some (NumberStyle.display.text x)
  | _ => none

end SlotMarkup.Value
