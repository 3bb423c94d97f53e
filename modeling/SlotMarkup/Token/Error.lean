import SlotMarkup.Text.Place

/-!
# Scan errors

Why a text cannot be cut into tokens (`ScanError.Cause`), and where.
-/

namespace SlotMarkup

/-- What is wrong with a text. -/
inductive ScanError.Cause
  /-- A line is indented with both tabs and spaces. -/
  | mixedIndent
  /-- A line ends its siblings, but no line around it is indented as it is. -/
  | inconsistentIndent (found : Nat)
  /-- There is no tag where one has to be. -/
  | expectedTag
  | unexpectedCharacter (found : Char)
  | unterminatedAttributes
  | unterminatedString
  /-- Nothing follows the equals sign of an attribute. -/
  | expectedAttributeValue
  /-- The line is program code. -/
  | unsupportedCode
  /-- The tag has the name of a control construct. -/
  | unsupportedKeyword (keyword : String)
  | unsupportedConstruct (construct : String)
  deriving DecidableEq, Repr, Inhabited

/-- What is wrong with a text, and where. -/
structure ScanError where
  cause : ScanError.Cause
  span : Span
  deriving DecidableEq, Repr, Inhabited

namespace ScanError

/-- The wording of a cause. -/
def Cause.message : Cause → String
  | mixedIndent => "indentation mixes tabs and spaces"
  | inconsistentIndent found =>
    "inconsistent indentation: outdent to column " ++ toString found ++
      " does not match any enclosing level"
  | expectedTag => "expected a tag name, `#id` or `.class`"
  | unexpectedCharacter found => "unexpected character `" ++ found.toString ++ "`"
  | unterminatedAttributes => "attribute list is never closed"
  | unterminatedString => "string is never closed"
  | expectedAttributeValue => "expected an attribute value after `=`"
  | unsupportedCode => "code lines and buffered code are not supported"
  | unsupportedKeyword keyword => "`" ++ keyword ++ "` is not supported"
  | unsupportedConstruct construct => "`" ++ construct ++ "` is not supported"

/-- The wording of an error, with its place. -/
def message (e : ScanError) : String := e.cause.message ++ " at " ++ e.span.toText

/-- The error of a cause found from `p` up to `q`. -/
def between (cause : Cause) (p q : Place) : ScanError := ⟨cause, p.spanTo q⟩

/-- The error of a cause found at a place. -/
def here (cause : Cause) (p : Place) : ScanError := ⟨cause, p.point⟩

/-- The character at `p` has no meaning there. -/
def unexpected (p : Place) : ScanError :=
  between (.unexpectedCharacter (p.rest.headD '\x00')) p (p.drop 1)

end ScanError

end SlotMarkup
