import SlotMarkup.Text.Place

/-!
# Tokens

The words of the markup (`Lexeme`), each with where it was read (`Token`). What
the parser decides by is the *kind* of a lexeme, the lexeme without its payload.

* `startsTag_iff`: a tag starts with its name or with a shorthand.
-/

namespace SlotMarkup

/-- The value of an attribute as written. -/
inductive AttrValue
  /-- The attribute is only named. -/
  | bare
  /-- The text after the equals sign, with its quotes. -/
  | raw (text : String)
  deriving DecidableEq, Repr, Inhabited

/-- The kinds of lexemes. -/
inductive Kind
  | tag
  | idShorthand
  | classShorthand
  | openAttributes
  | attr
  | closeAttributes
  | text
  | openTextBlock
  | closeTextBlock
  | colon
  | comment
  | newline
  | indent
  | outdent
  | eof
  deriving DecidableEq, Repr, Inhabited

namespace Kind

/-- The kind in the words of an error message. -/
def describe : Kind → String
  | tag => "tag"
  | idShorthand => "id shorthand"
  | classShorthand => "class shorthand"
  | openAttributes => "`(`"
  | attr => "attribute"
  | closeAttributes => "`)`"
  | text => "text"
  | openTextBlock => "text block"
  | closeTextBlock => "end of text block"
  | colon => "`:`"
  | comment => "comment"
  | newline => "newline"
  | indent => "indent"
  | outdent => "outdent"
  | eof => "end of template"

/-- Whether a tag can start with a lexeme of this kind. -/
def startsTag : Kind → Bool
  | tag | idShorthand | classShorthand => true
  | _ => false

/-- A tag starts with its name, or with a shorthand if it has none. -/
theorem startsTag_iff (k : Kind) :
    k.startsTag = true ↔ k = tag ∨ k = idShorthand ∨ k = classShorthand := by
  cases k <;> simp [startsTag]

end Kind

/-- The words of the markup. -/
inductive Lexeme
  /-- The name of an element. -/
  | tag (name : String)
  /-- `#name` -/
  | idShorthand (name : String)
  /-- `.name` -/
  | classShorthand (name : String)
  | openAttributes
  | attr (name : String) (value : AttrValue)
  | closeAttributes
  /-- The text after a tag, a piped line, a line of literal markup or a line of a
      text block. -/
  | text (value : String)
  /-- The dot after a tag whose deeper lines are text. -/
  | openTextBlock
  | closeTextBlock
  /-- The colon between a tag and the only tag in it. -/
  | colon
  /-- A comment, kept for the reader of the page if it is `buffered`. -/
  | comment (value : String) (buffered : Bool)
  /-- A line break between siblings, or between the lines of a text block. -/
  | newline
  | indent
  | outdent
  | eof
  deriving DecidableEq, Repr, Inhabited

/-- The lexeme without its payload. -/
def Lexeme.kind : Lexeme → Kind
  | tag _ => .tag
  | idShorthand _ => .idShorthand
  | classShorthand _ => .classShorthand
  | openAttributes => .openAttributes
  | attr _ _ => .attr
  | closeAttributes => .closeAttributes
  | text _ => .text
  | openTextBlock => .openTextBlock
  | closeTextBlock => .closeTextBlock
  | colon => .colon
  | comment _ _ => .comment
  | newline => .newline
  | indent => .indent
  | outdent => .outdent
  | eof => .eof

/-- A lexeme and where it was read. -/
structure Token where
  lexeme : Lexeme
  span : Span
  deriving DecidableEq, Repr, Inhabited

namespace Token

/-- The kind of a token's lexeme. -/
def kind (t : Token) : Kind := t.lexeme.kind

/-- The token of a lexeme read from `p` up to `q`. -/
def read (lexeme : Lexeme) (p q : Place) : Token := ⟨lexeme, p.spanTo q⟩

end Token

end SlotMarkup
