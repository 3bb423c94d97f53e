import SlotMarkup.Text.Blank
import SlotMarkup.Text.Lines

/-!
# Common indentation

A template is written in the middle of a program, indented with it. Before it
is read, the indentation common to its lines is taken off and the blank space
around it is dropped (`dedent`).
-/

namespace SlotMarkup

/-- The smallest indentation among the lines that hold more than spaces, and
    zero if there is none. -/
def commonIndent (lines : List (List Char)) : Nat :=
  (((lines.filter fun l => !l.all isSpace).map indentWidth).min?).getD 0

/-- A line less `width` characters of its indentation; a line indented by less
    is left alone. -/
def outdentLine (width : Nat) (line : List Char) : List Char :=
  if width ≤ indentWidth line then line.drop width else line

/-- The text without the indentation its lines share, trimmed. -/
def dedentChars (cs : List Char) : List Char :=
  let lines := splitLines cs
  trim (joinLines (lines.map (outdentLine (commonIndent lines))))

/-- The text without the indentation its lines share, trimmed. -/
def dedent (text : String) : String := String.ofList (dedentChars text.toList)

end SlotMarkup
