import SlotMarkup.Proofs.ByteSpelling

/-!
# Reading by byte offsets

A text is stored as its bytes, and a place of it as the number of bytes before the place. Here
are the readers of the markup as they go from offset to offset. Each looks at single bytes, and
cuts out of the text what it passes on.

A byte can be asked for beyond the end of a text, and a text can be cut inside of a character. A
reader that does so has no outcome at all (`Checked`). Nor has a loop that goes on without having
come further in the text, as it might not end (`Source.onward`).
-/

namespace SlotMarkup

/-- The outcome of a reader, unless it does not come to one. -/
abbrev Checked := ExceptT ScanError Option

namespace Checked

variable {α : Type}

/-- What is there, if it is. -/
def get (o : Option α) : Checked α := ExceptT.lift o

/-- The error of a cause found from one offset to another. -/
def failAt (cause : ScanError.Cause) (start stop : Nat) : Checked α :=
  throw ⟨cause, .ofRange start stop⟩

end Checked

/-- A text that is read by its bytes. -/
structure Source where
  text : String

namespace Source

variable (src : Source)

/-! ## Looking and cutting -/

/-- The bytes of the text, taken for characters. -/
def bytes : List Char := src.text.toUTF8.data.toList.map asChar

/-- The number of bytes. -/
def size : Nat := src.bytes.length

/-- The bytes from an offset on, if there are any. -/
def view (pos : Nat) : List Char := src.bytes.drop pos

/-- The byte at an offset, if there is one. -/
def peek (pos : Nat) : Option Char := (src.view pos).head?

/-- The byte at an offset. -/
def byteAt (pos : Nat) : Checked Char := .get src.bytes[pos]?

/-- The bytes from an offset on, which is one of the text. -/
def bytesFrom (pos : Nat) : Checked (List Char) :=
  .get (if pos ≤ src.size then some (src.view pos) else none)

/-- The text between two offsets. -/
def slice (start stop : Nat) : Checked (List Char) := .get (slice? src.text.toList start stop)

/-- Goes on at an offset further in the text than the one before. -/
def onward {α : Type} (pos next : Nat) (more : src.size - next < src.size - pos → Checked α) :
    Checked α := if h : src.size - next < src.size - pos then more h else .get none

/-- The offset behind a run of bytes of a class. -/
def skip (f : Char → Bool) (pos : Nat) : Nat := pos + ((src.view pos).takeWhile f).length

/-! ## Lines -/

/-- The end of the line, before its line break. -/
def lineEnd (pos : Nat) : Checked Nat := do
  let stop := pos + ((← src.bytesFrom pos).takeWhile (· != '\n')).length
  if pos < stop then
    if (← src.byteAt (stop - 1)) = '\r' then pure (stop - 1) else pure stop
  else pure stop

/-- The start of the next line, or the end of the text. -/
def nextLine (pos : Nat) : Checked Nat := do
  let length := ((← src.bytesFrom pos).takeWhile (· != '\n')).length
  pure (min (pos + length + 1) src.size)

/-- Whether an offset is at a line break or at the end of the text. -/
def atLineEnd (pos : Nat) : Bool := (src.peek pos).all fun b => b == '\n' || b == '\r'

/-- Whether the rest of the line is blank. -/
def restIsBlank (pos : Nat) : Checked Bool := do
  let line ← src.slice pos (← src.lineEnd pos)
  pure (isBlankText (spell line))

/-- The character at an offset has no meaning there. -/
def unexpected {α : Type} (pos : Nat) : Checked α := do
  let found := (← src.slice pos src.size).headD '\x00'
  .failAt (.unexpectedCharacter found) pos (pos + found.utf8Size)

/-! ## Nested lines -/

/-- A line below another: where it is, and the width of its indentation unless it is blank. -/
structure RawLine where
  start : Nat
  stop : Nat
  width : Option Nat

/-- What is kept of a nested line. -/
structure NestedLine where
  text : List Char
  span : Span

/-- The lines from `pos` on that are blank or indented by more than `base`, and the start of
    the line behind them. -/
def nestedRun (base pos : Nat) : Checked (List RawLine × Nat) := do
  if pos < src.size then
    let stop ← src.lineEnd pos
    let line := spell (← src.slice pos stop)
    let width := if isBlankText line then none else some (indentWidth line)
    if width.all (base < ·) then
      let next ← src.nextLine pos
      let (lines, next) ← src.onward pos next fun _ => nestedRun base next
      pure (⟨pos, stop, width⟩ :: lines, next)
    else pure ([], pos)
  else pure ([], pos)
termination_by src.size - pos

/-- A line without `width` bytes of its indentation; nothing of a blank one. -/
def stripLine (width : Nat) (line : RawLine) : Checked NestedLine :=
  if line.width.isNone then pure ⟨[], .ofRange line.start line.start⟩
  else do
    let text ← src.slice (line.start + width) line.stop
    pure ⟨text, .ofRange (line.start + width) line.stop⟩

/-- The lines nested below a line indented by `base`, and the start of the line behind them. -/
def nestedLines (base pos : Nat) : Checked (List NestedLine × Nat) := do
  let (run, next) ← src.nestedRun base pos
  let kept := dropTrailing (·.width.isNone) run
  let width := ((kept.filterMap (·.width)).min?).getD 0
  pure (← kept.mapM (src.stripLine width), next)

/-! ## Attributes -/

/-- The offset behind the string that starts with the quote at `pos`. -/
def stringEnd (quote : Char) (pos : Nat) : Checked Nat :=
  match quotedLength? quote (src.view (pos + 1)) with
  | some length => pure (pos + 1 + length)
  | none => .failAt .unterminatedString pos src.size

/-- The offset behind the raw value that goes on at `pos` inside `depth` brackets. -/
def valueEnd (depth pos : Nat) : Checked Nat :=
  match src.peek pos with
  | none => pure pos
  | some b => do
    if b = '\'' ∨ b = '"' ∨ b = '\x60' then
      let next ← src.stringEnd b pos
      src.onward pos next fun _ => valueEnd depth next
    else if b = '(' ∨ b = '[' ∨ b = '\x7b' then
      src.onward pos (pos + 1) fun _ => valueEnd (depth + 1) (pos + 1)
    else if b = ')' ∨ b = ']' ∨ b = '\x7d' then
      if depth = 0 then pure pos
      else src.onward pos (pos + 1) fun _ => valueEnd (depth - 1) (pos + 1)
    else if depth = 0 ∧ (b = ',' ∨ isBlank b) then pure pos
    else src.onward pos (pos + 1) fun _ => valueEnd depth (pos + 1)
termination_by src.size - pos

/-- The name of the attribute at `pos`, without quotes, and the offset behind it. -/
def attributeName (pos : Nat) : Checked (List Char × Nat) := do
  let quote := (src.peek pos).filter fun b => b == '\'' || b == '"'
  match quote with
  | some quote =>
    let stop ← src.stringEnd quote pos
    pure (← src.slice (pos + 1) (stop - 1), stop)
  | none =>
    let stop := pos + nameLength (src.view pos)
    let name ← src.slice pos stop
    if stop = pos then src.unexpected pos else pure (name, stop)

/-- The number of bytes of the equals sign at `pos`, with an exclamation mark before it. -/
def equalsLength? (pos : Nat) : Option Nat :=
  if src.peek pos = some '=' then some 1
  else if src.peek pos = some '!' ∧ src.peek (pos + 1) = some '=' then some 2
  else none

/-- The raw value at `pos`, which is not empty, and the offset behind it. -/
def attributeValue (pos : Nat) : Checked (List Char × Nat) := do
  let stop ← src.valueEnd 0 pos
  if stop = pos then .failAt .expectedAttributeValue pos pos
  else pure (← src.slice pos stop, stop)

/-- The attribute at `pos` and the offset behind it. -/
def readAttribute (pos : Nat) : Checked (Token × Nat) := do
  let (name, stop) ← src.attributeName pos
  let equals := src.skip isIndent stop
  match src.equalsLength? equals with
  | none => pure (⟨.attr (String.ofList name) .bare, .ofRange pos stop⟩, stop)
  | some length =>
    let (value, stop) ← src.attributeValue (src.skip isBlank (equals + length))
    pure (⟨.attr (String.ofList name) (.raw (String.ofList value)), .ofRange pos stop⟩, stop)

/-- The attributes from `pos` on up to the closing parenthesis, of the list that was opened
    at `start`. -/
def attributesFrom (start pos : Nat) : Checked (List Token × Nat) := do
  let entry := src.skip isSeparator pos
  match src.peek entry with
  | none => .failAt .unterminatedAttributes start src.size
  | some ')' => pure ([⟨.closeAttributes, .ofRange entry (entry + 1)⟩], entry + 1)
  | some _ =>
    let (t, next) ← src.readAttribute entry
    let (ts, next) ← src.onward pos next fun _ => attributesFrom start next
    pure (t :: ts, next)
termination_by src.size - pos

/-! ## Heads -/

/-- The offset behind a name that ends before `stop`, without the characters at its end that
    only join words. The first character of the name, at `start`, is not one of these. -/
def joinsEnd (start : Nat) : Nat → Checked Nat
  | 0 => pure 0
  | stop + 1 => do
    if start < stop then
      if isNameJoint (← src.byteAt stop) then joinsEnd start stop else pure (stop + 1)
    else pure (stop + 1)

/-- The lexeme that the sigil at `pos` makes of a name, if a name follows it. -/
def sigilAt (pos : Nat) : Option (String → Lexeme) :=
  if (src.peek (pos + 1)).any isNamePart then (src.peek pos).bind sigil? else none

/-- The shorthand whose sigil is at `pos` and the offset behind it. -/
def readShorthand (lexeme : String → Lexeme) (pos : Nat) : Checked (Token × Nat) := do
  let stop := src.skip isNamePart (pos + 1)
  let name ← src.slice (pos + 1) stop
  pure (⟨lexeme (String.ofList name), .ofRange pos stop⟩, stop)

/-- The run of shorthands and, once there was some part (`seen`), of attribute lists at `pos`. -/
def tagParts (seen : Bool) (pos : Nat) : Checked (List Token × Nat) := do
  match src.sigilAt pos with
  | some lexeme =>
    let (t, next) ← src.readShorthand lexeme pos
    let (ts, next) ← src.onward pos next fun _ => tagParts true next
    pure (t :: ts, next)
  | none =>
    if seen ∧ src.peek pos = some '(' then
      let (as, next) ← src.attributesFrom pos (pos + 1)
      let (ts, next) ← src.onward pos next fun _ => tagParts true next
      pure (⟨.openAttributes, .ofRange pos (pos + 1)⟩ :: as ++ ts, next)
    else pure ([], pos)
termination_by src.size - pos

/-- The head of a tag: its name, and the run of parts after it. There is a name or a part. -/
def tagHead (pos : Nat) : Checked (List Token × Nat) := do
  if (src.peek pos).any isWord then
    let stop ← src.joinsEnd pos (src.skip isTagNamePart pos)
    let name := String.ofList (← src.slice pos stop)
    if name ∈ keywords then .failAt (.unsupportedKeyword name) pos stop
    else
      let (ts, next) ← src.tagParts true stop
      pure (⟨.tag name, .ofRange pos stop⟩ :: ts, next)
  else
    let (ts, next) ← src.tagParts false pos
    if ts = [] then .failAt .expectedTag pos pos else pure (ts, next)

/-! ## Lines -/

/-- The tokens of one line of a text block: its text, unless it has none. -/
def lineTokens (line : NestedLine) : List Token :=
  if line.text = [] then [] else [⟨.text (String.ofList line.text), line.span⟩]

/-- The tokens of the lines of a text block. -/
def blockTokens : List NestedLine → List Token
  | [] => []
  | line :: more =>
    lineTokens line ++
      more.flatMap fun line => ⟨.newline, .point line.span.start⟩ :: lineTokens line

/-- The text block opened by the dot at `pos`, on a line indented by `indent`. -/
def textBlock (indent pos : Nat) : Checked (List Token × Nat) := do
  let (lines, next) ← src.nestedLines indent (← src.nextLine pos)
  let stop := (lines.getLast?.map (·.span.stop)).getD (pos + 1)
  pure (⟨.openTextBlock, .ofRange pos (pos + 1)⟩ ::
    (blockTokens lines ++ [⟨.closeTextBlock, .ofRange stop stop⟩]), next)

/-- What follows the head of a tag, other than the end of the line and a colon. -/
def tagBody (indent pos : Nat) : Checked (List Token × Nat) := do
  match src.peek pos with
  | some '.' =>
    if (src.peek (pos + 1)).all isBlank then
      if ← src.restIsBlank (pos + 1) then src.textBlock indent pos else src.unexpected pos
    else src.unexpected pos
  | some ' ' =>
    let stop ← src.lineEnd pos
    let text ← src.slice (pos + 1) stop
    let tokens := if isBlankText (spell text) then []
      else [⟨.text (String.ofList text), .ofRange (pos + 1) stop⟩]
    pure (tokens, ← src.nextLine stop)
  | some '/' =>
    if ← src.restIsBlank (pos + 1) then pure ([], ← src.nextLine (pos + 1))
    else src.unexpected (pos + 1)
  | some '=' => .failAt .unsupportedCode pos (pos + 1)
  | some '!' =>
    if src.peek (pos + 1) = some '=' then .failAt .unsupportedCode pos (pos + 2)
    else src.unexpected pos
  | some '&' => .failAt (.unsupportedConstruct "&attributes") pos (← src.lineEnd pos)
  | _ => src.unexpected pos

/-- The tags of a line from `pos` on, the line being indented by `indent`. -/
def tagLine (indent pos : Nat) : Checked (List Token × Nat) := do
  let (head, stop) ← src.tagHead pos
  if src.atLineEnd stop then pure (head, ← src.nextLine stop)
  else if src.peek stop = some ':' then
    let inner := src.skip isIndent (stop + 1)
    if src.atLineEnd inner then .failAt .expectedTag inner inner
    else
      let (ts, next) ← src.onward pos inner fun _ => tagLine indent inner
      pure (head ++ ⟨.colon, .ofRange stop (stop + 1)⟩ :: ts, next)
  else
    let (ts, next) ← src.tagBody indent stop
    pure (head ++ ts, next)
termination_by src.size - pos

/-- The text line whose bar is at `pos`. -/
def pipedLine (pos : Nat) : Checked (List Token × Nat) := do
  let stop ← src.lineEnd pos
  let start := if src.peek (pos + 1) = some ' ' ∧ pos + 1 < stop then pos + 2 else pos + 1
  let text ← src.slice start stop
  pure ([⟨.text (String.ofList text), .ofRange pos stop⟩], ← src.nextLine stop)

/-- The line of literal markup at `pos`. -/
def literalLine (pos : Nat) : Checked (List Token × Nat) := do
  let stop ← src.lineEnd pos
  let text ← src.slice pos stop
  pure ([⟨.text (String.ofList text), .ofRange pos stop⟩], ← src.nextLine stop)

/-- The comment at `pos`, on a line indented by `indent`. -/
def commentLines (indent pos : Nat) : Checked (List Token × Nat) := do
  let buffered := !(['/', '/', '-'].isPrefixOf (← src.slice pos src.size))
  let stop ← src.lineEnd pos
  let first ← src.slice (pos + if buffered then 2 else 3) stop
  let (lines, next) ← src.nestedLines indent (← src.nextLine stop)
  let value := trimLeft first ++ lines.flatMap fun line => '\n' :: line.text
  let stop := (lines.getLast?.map (·.span.stop)).getD stop
  pure ([⟨.comment (String.ofList value) buffered, .ofRange pos stop⟩], next)

/-- The content of a line indented by `indent`, from `pos` on. -/
def lineContent (indent pos : Nat) : Checked (List Token × Nat) := do
  let rest ← src.slice pos src.size
  if ['/', '/'].isPrefixOf rest then src.commentLines indent pos
  else if ['!', '='].isPrefixOf rest then .failAt .unsupportedCode pos (pos + 2)
  else match src.peek pos with
    | some '|' => src.pipedLine pos
    | some '<' => src.literalLine pos
    | some '-' | some '=' => .failAt .unsupportedCode pos (pos + 1)
    | some '+' => .failAt (.unsupportedConstruct "+mixin") pos (pos + 1)
    | _ => src.tagLine indent pos

/-! ## Texts -/

/-- The width of the indentation of a line that starts at `pos`. It is made of spaces or of
    tabs. -/
def measureIndent (line : List Char) (pos : Nat) : Checked Nat := do
  let width := indentWidth (spell line)
  let leading ← .get (if width ≤ (spell line).length then some ((spell line).take width) else none)
  if leading.contains ' ' && leading.contains '\t' then .failAt .mixedIndent pos (pos + width)
  else pure width

/-- The tokens of the lines from `pos` on. -/
def scanLines (levels : List Nat) (first : Bool) (pos : Nat) : Checked (List Token) := do
  if pos < src.size then
    let line ← src.slice pos (← src.lineEnd pos)
    if isBlankText (spell line) then
      let next ← src.nextLine pos
      src.onward pos next fun _ => scanLines levels first next
    else
      let width ← measureIndent line pos
      let start := pos + width
      match openLine levels first width with
      | none => .failAt (.inconsistentIndent width) pos start
      | some (opening, inner) =>
        let (content, next) ← src.lineContent width start
        let more ← src.onward pos next fun _ => scanLines inner false next
        pure (opening.map (⟨·, .ofRange start start⟩) ++ (content ++ more))
  else pure (levels.map (fun _ => ⟨.outdent, .ofRange pos pos⟩) ++ [⟨.eof, .ofRange pos pos⟩])
termination_by src.size - pos

/-- The tokens of the text. -/
def scan : Checked (List Token) := src.scanLines [] true 0

end Source

end SlotMarkup
