import SlotMarkup.Markup.Head
import SlotMarkup.Token.Document

/-!
# Parsing

The grammar of markup, read by recursive descent without ever going back. A
template is a run of items; a tag is a head, possibly content on its own line, and
possibly a run of items nested below it. Every run is wrapped in a block, also
where it holds one item or none.

Each reader also says that the cursor it ends at is no further from the end of
the tokens than the one it started from, a tag's reader even that it is nearer.
So every loop ends.

* `Block.ofTokens`: parses a list of tokens;
* `Block.parse`: parses a text.
-/

namespace SlotMarkup

/-- The cursors at `c` or after it. -/
abbrev Cursor.From (c : Cursor) := {d : Cursor // d.rest.length ≤ c.rest.length}

/-- The cursors after `c`. -/
abbrev Cursor.After (c : Cursor) := {d : Cursor // d.rest.length < c.rest.length}

/-- The items of a line of text. Consecutive lines are joined by a line feed, and an
    empty line has no text of its own. -/
def textItems (afterText : Bool) (value : String) (span : Span) : List Item :=
  (if afterText then [.text ⟨"\n", .point span.start⟩] else []) ++
    if value.isEmpty then [] else [.text ⟨value, span⟩]

/-- The block of the items nested below a tag's line. -/
def nestedBlock (indent : Span) (items : List Item) : Block :=
  ⟨items, items.foldl (fun s i => s.merge i.span) indent⟩

/-- The tag from `start` to the last token passed at `c`, with this content. -/
def Tag.close (head : TagHead) (content : List Item) (start : Span) (c : Cursor) : Tag :=
  let span := start.merge c.previous
  ⟨head.name, head.attrs, some (Block.ofItems content (.point span.stop)), span⟩

mutual

/-- The items up to a token of the kind `stop`, which ends the template or a nested
    run; `afterText` says that the item before is a line of text. -/
def readItems (stop : Kind) (afterText : Bool) (c : Cursor) :
    Except ParseError (List Item × c.From) :=
  match _h : c.current.lexeme with
  | .eof | .outdent =>
    if c.kind = stop then .ok ([], ⟨c, Nat.le_refl _⟩) else .error (c.unexpected (.kind stop))
  | .newline => do
    let (items, ⟨d, hd⟩) ← readItems stop afterText c.advance
    return (items, ⟨d, Nat.le_trans hd c.advance_le⟩)
  | .text value => do
    let (items, ⟨d, hd⟩) ← readItems stop true c.advance
    return (textItems afterText value c.current.span ++ items, ⟨d, Nat.le_trans hd c.advance_le⟩)
  | .comment value buffered => do
    let (items, ⟨d, hd⟩) ← readItems stop false c.advance
    return (.comment ⟨value, buffered, c.current.span⟩ :: items, ⟨d, Nat.le_trans hd c.advance_le⟩)
  | _ =>
    if hc : c.kind.startsTag = true then do
      let (tag, ⟨d, hd⟩) ← readTag c hc
      let (items, ⟨e, he⟩) ← readItems stop false d
      return (.tag tag :: items, ⟨e, Nat.le_of_lt (Nat.lt_of_le_of_lt he hd)⟩)
    else .error (c.unexpected .item)
termination_by 2 * c.rest.length + 1
decreasing_by
  · have := c.advance_lt (Cursor.kind_ne_eof _h (by simp [Lexeme.kind]))
    omega
  · have := c.advance_lt (Cursor.kind_ne_eof _h (by simp [Lexeme.kind]))
    omega
  · have := c.advance_lt (Cursor.kind_ne_eof _h (by simp [Lexeme.kind]))
    omega
  · exact Nat.lt_succ_self _
  · omega

/-- One tag with all that is in it. -/
def readTag (c : Cursor) (hc : c.kind.startsTag = true) : Except ParseError (Tag × c.After) :=
  match hh : readHead c with
  | .error e => .error e
  | .ok (head, b) => do
    have hb := readHead_lt hc hh
    let (inline, ⟨d, hd⟩) ← readInline b
    let (nested, ⟨e, he⟩) ← readNested d
    return (Tag.close head (inline ++ nested) c.current.span e,
      ⟨e, Nat.lt_of_le_of_lt (Nat.le_trans he hd) hb⟩)
termination_by 2 * c.rest.length
decreasing_by all_goals omega

/-- The content of a tag on its own line: one more tag after a colon, a text block, or
    a text. -/
def readInline (c : Cursor) : Except ParseError (List Item × c.From) :=
  match _h : c.current.lexeme with
  | .colon =>
    if hc : c.advance.kind.startsTag = true then do
      let (tag, ⟨d, hd⟩) ← readTag c.advance hc
      return ([.tag tag], ⟨d, Nat.le_trans (Nat.le_of_lt hd) c.advance_le⟩)
    else .error (c.advance.unexpected (.kind .tag))
  | .openTextBlock =>
    match hb : textBlockItems c.advance with
    | .error e => .error e
    | .ok (items, d) => .ok (items, ⟨d, Nat.le_trans (textBlockItems_le hb) c.advance_le⟩)
  | .text value => .ok ([.text ⟨value, c.current.span⟩], ⟨c.advance, c.advance_le⟩)
  | _ => .ok ([], ⟨c, Nat.le_refl _⟩)
termination_by 2 * c.rest.length
decreasing_by
  have := c.advance_lt (Cursor.kind_ne_eof _h (by simp [Lexeme.kind]))
  omega

/-- The items nested below a tag's line, if there are any, as one block. -/
def readNested (c : Cursor) : Except ParseError (List Item × c.From) :=
  if _hc : c.kind = .indent then do
    let (items, ⟨d, hd⟩) ← readItems .outdent false c.advance
    match he : d.expect .outdent with
    | .error e => .error e
    | .ok e =>
      return ([.block (nestedBlock c.current.span items)],
        ⟨e, Nat.le_trans (Cursor.expect_le he) (Nat.le_trans hd c.advance_le)⟩)
  else .ok ([], ⟨c, Nat.le_refl _⟩)
termination_by 2 * c.rest.length
decreasing_by
  have := c.advance_lt (by simp [_hc])
  omega

end

namespace Block

/-- Parses a list of tokens. -/
def ofTokens (tokens : List Token) : Except ParseError Block :=
  (readItems .eof false (.ofTokens tokens)).map fun (items, ⟨d, _⟩) =>
    Block.ofItems items d.current.span

/-- Parses a text. -/
def parse (text : String) : Except ParseError Block :=
  match Token.scan text with
  | .error e => .error (.scan e)
  | .ok tokens => ofTokens tokens

end Block

end SlotMarkup
