import SlotMarkup.Token.Tag

/-!
# Cutting a text into tokens

Markup is written in lines. A line that is not blank starts with the change of
indentation against the line before it (`openLine`), and goes on with the tokens
of its content (`lineContent`). At the end of the text all lines are closed
(`Token.scan`).

The indentation of the enclosing lines is a list of widths, the innermost first,
none of them zero: text without indentation is enclosed by nothing.

* `lineContent_reaches`: the content of a line takes at least a character.
-/

namespace SlotMarkup

/-! ## Lines of other kinds -/

/-- The text line whose bar is at `p`. One space after the bar is no part of the
    text. -/
def pipedLine (p : Place) : List Token × Place :=
  let text := match (p.drop 1).line with
    | ' ' :: cs => cs
    | cs => cs
  ([.read (.text (String.ofList text)) p p.lineEnd], p.nextLine)

/-- The line of literal markup at `p`. -/
def literalLine (p : Place) : List Token × Place :=
  ([.read (.text (String.ofList p.line)) p p.lineEnd], p.nextLine)

/-- The comment at `p`, on a line indented by `indent`: it goes on in the nested
    lines. A hyphen after the slashes says that it is for the author alone. -/
def commentLines (indent : Nat) (p : Place) : List Token × Place :=
  let buffered := (p.rest.drop 2).head? != some '-'
  let first := p.line.drop (if buffered then 2 else 3)
  let (lines, next) := nestedLines indent p.nextLine
  let value := trimLeft first ++ lines.flatMap fun s => '\n' :: s.chars
  let stop := ((lines.getLast?).map Stretch.stop).getD p.lineEnd
  ([.read (.comment (String.ofList value) buffered) p stop], next)

/-- The content of a line indented by `indent`, from `p` on. -/
def lineContent (indent : Nat) (p : Place) : Scan :=
  match p.rest with
  | '/' :: '/' :: _ => .ok (commentLines indent p)
  | '!' :: '=' :: _ => .error (.between .unsupportedCode p (p.drop 2))
  | '|' :: _ => .ok (pipedLine p)
  | '<' :: _ => .ok (literalLine p)
  | '-' :: _ | '=' :: _ => .error (.between .unsupportedCode p (p.drop 1))
  | '+' :: _ => .error (.between (.unsupportedConstruct "+mixin") p (p.drop 1))
  | _ => tagLine indent p

/-- Whatever stands on a line, at least a character of it is taken. -/
theorem lineContent_reaches {indent : Nat} {p q : Place} {ts : List Token}
    (h : lineContent indent p = .ok (ts, q)) : p.Reaches q ∧ q.rest.length < p.rest.length := by
  unfold lineContent at h
  split at h
  · rename_i hp
    have hq : (commentLines indent p).2 = q := congrArg Prod.snd (Except.ok.inj h)
    have hr := reaches_nestedLines indent p.nextLine
    exact hq ▸ ⟨p.reaches_nextLine.trans hr,
      Nat.lt_of_le_of_lt hr.length_le (Place.nextLine_lt (by simp [hp]))⟩
  · simp at h
  · rename_i hp
    exact (Prod.mk.inj (Except.ok.inj h)).2 ▸
      ⟨p.reaches_nextLine, Place.nextLine_lt (by simp [hp])⟩
  · rename_i hp
    exact (Prod.mk.inj (Except.ok.inj h)).2 ▸
      ⟨p.reaches_nextLine, Place.nextLine_lt (by simp [hp])⟩
  · simp at h
  · simp at h
  · simp at h
  · exact tagLine_reaches h

/-! ## Indentation -/

/-- What a line indented by `indent` does to the `levels` of the enclosing lines:
    the lexemes it starts with and its own levels. The `first` line of a text does
    not break an earlier one. There is no outcome if the line closes others, but
    none of those left is indented as it is. -/
def openLine (levels : List Nat) (first : Bool) (indent : Nat) : Option (List Lexeme × List Nat) :=
  let current := levels.headD 0
  if current < indent then some ([.indent], indent :: levels)
  else if current = indent then some (if first then [] else [.newline], levels)
  else
    let kept := levels.dropWhile (indent < ·)
    if kept.headD 0 = indent then
      some (List.replicate (levels.length - kept.length) .outdent, kept)
    else none

/-- Whether the indentation of the line at `p` mixes tabs and spaces. -/
def mixesIndent (p : Place) : Bool :=
  let leading := p.rest.takeWhile isIndent
  leading.contains ' ' && leading.contains '\t'

/-- The tokens at the end of a text: every enclosing line is closed. -/
def closing (levels : List Nat) (p : Place) : List Token :=
  levels.map (fun _ => ⟨.outdent, p.point⟩) ++ [⟨.eof, p.point⟩]

/-- The tokens of the lines from `p` on. -/
def scanLines (levels : List Nat) (first : Bool) (p : Place) : Except ScanError (List Token) :=
  if _hp : p.rest = [] then .ok (closing levels p)
  else if isBlankText p.line then scanLines levels first p.nextLine
  else
    let start := p.drop p.indent
    if mixesIndent p then .error (.between .mixedIndent p start)
    else match openLine levels first p.indent with
      | none => .error (.between (.inconsistentIndent p.indent) p start)
      | some (opening, inner) =>
        match _hc : lineContent p.indent start with
        | .error e => .error e
        | .ok (content, next) =>
          (scanLines inner false next).map fun more =>
            opening.map (fun l => ⟨l, start.point⟩) ++ (content ++ more)
termination_by p.rest.length
decreasing_by
  · exact Place.nextLine_lt _hp
  · exact Nat.lt_of_lt_of_le (lineContent_reaches _hc).2 (p.length_drop_le p.indent)

/-- The tokens of a text, or what is wrong with it. -/
def Token.scan (text : String) : Except ScanError (List Token) :=
  scanLines [] true (.ofText text)

end SlotMarkup
