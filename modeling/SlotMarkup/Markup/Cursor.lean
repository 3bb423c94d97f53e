import SlotMarkup.Token.Error
import SlotMarkup.Token.Basic

/-!
# Cursors

A `Cursor` stands before a token of a list. It moves on one token at a time and
never past the end of the template, which is the first token of kind `eof` or,
where there is none, the end of the list.

* `advance_lt`: moving on from any other token leaves fewer tokens;
* `advance_of_eof`: at the end it stays.
-/

namespace SlotMarkup

/-- What the parser looks for. -/
inductive Wanted
  | kind (k : Kind)
  /-- Anything that can stand on a line. -/
  | item
  deriving DecidableEq, Repr, Inhabited

/-- What is looked for, in the words of an error message. -/
def Wanted.describe : Wanted → String
  | kind k => k.describe
  | item => "tag, text or comment"

/-- Why a text cannot be parsed. -/
inductive ParseError
  /-- It cannot be cut into tokens. -/
  | scan (e : ScanError)
  | unexpectedToken (found : Kind) (wanted : Wanted) (span : Span)
  /-- A line is nested where nothing can own it, as below a line of text. -/
  | unexpectedIndent (span : Span)
  | unexpectedEof (span : Span)
  deriving DecidableEq, Repr, Inhabited

namespace ParseError

/-- Where the error was found. -/
def span : ParseError → Span
  | scan e => e.span
  | unexpectedToken _ _ s | unexpectedIndent s | unexpectedEof s => s

/-- The wording of an error, with its place. -/
def message : ParseError → String
  | scan e => e.message
  | unexpectedToken found wanted s =>
    "expected " ++ wanted.describe ++ ", found " ++ found.describe ++ " at " ++ s.toText
  | unexpectedIndent s => "unexpected indentation at " ++ s.toText
  | unexpectedEof s => "unexpected end of template at " ++ s.toText

end ParseError

/-- A point before a token of a list. -/
structure Cursor where
  /-- The span of the token passed last, `Span.nowhere` before the first one. -/
  previous : Span
  /-- The tokens that follow. -/
  rest : List Token
  deriving DecidableEq, Repr

namespace Cursor

/-- The start of a list. -/
def ofTokens (tokens : List Token) : Cursor := ⟨.nowhere, tokens⟩

/-- The next token. After the list, the template ends nowhere in particular. -/
def current (c : Cursor) : Token := c.rest.headD ⟨.eof, .nowhere⟩

/-- The kind of the next token. -/
def kind (c : Cursor) : Kind := c.current.kind

/-- Whether the template ends here. -/
def atEnd (c : Cursor) : Bool := c.kind == .eof

/-- The cursor after the next token, or the same at the end of the template. -/
def advance (c : Cursor) : Cursor := if c.atEnd then c else ⟨c.current.span, c.rest.tail⟩

/-- The error that the next token is not what is wanted. -/
def unexpected (c : Cursor) (wanted : Wanted) : ParseError :=
  match c.kind with
  | .eof => .unexpectedEof c.current.span
  | .indent => .unexpectedIndent c.current.span
  | k => .unexpectedToken k wanted c.current.span

/-- Passes a token of a kind. -/
def expect (c : Cursor) (k : Kind) : Except ParseError Cursor :=
  if c.kind = k then .ok c.advance else .error (c.unexpected (.kind k))

/-- At the end of the template a cursor stays where it is. -/
theorem advance_of_eof {c : Cursor} (h : c.kind = .eof) : c.advance = c := by
  simp [advance, atEnd, h]

/-- Before the end, moving on takes the next token off those to come. -/
theorem rest_advance {c : Cursor} (h : c.kind ≠ .eof) : c.rest = c.current :: c.advance.rest := by
  match c, h with
  | ⟨_, []⟩, h => exact absurd rfl h
  | ⟨_, t :: ts⟩, h => simp [advance, atEnd, h, current]

/-- Before the end, moving on leaves fewer tokens. The parser comes to an end by this. -/
theorem advance_lt {c : Cursor} (h : c.kind ≠ .eof) :
    c.advance.rest.length < c.rest.length := by
  rw [rest_advance h]
  simp

/-- Moving on never leaves more tokens. -/
theorem advance_le (c : Cursor) : c.advance.rest.length ≤ c.rest.length := by
  by_cases h : c.kind = .eof
  · exact Nat.le_of_eq (by rw [advance_of_eof h])
  · exact Nat.le_of_lt (advance_lt h)

/-- Passing an expected token never leaves more tokens. -/
theorem expect_le {c d : Cursor} {k : Kind} (h : c.expect k = .ok d) :
    d.rest.length ≤ c.rest.length := by
  unfold expect at h
  split at h
  · exact Except.ok.inj h ▸ c.advance_le
  · simp at h

end Cursor

end SlotMarkup
