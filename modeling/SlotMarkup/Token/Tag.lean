import SlotMarkup.Token.Attribute
import SlotMarkup.Token.Nested

/-!
# Tag lines

A line of markup opens a tag. Its *head* (`tagHead`) is a name, or else a
shorthand, and after it any run of shorthands and attribute lists. What comes
next on the line says what is in the tag (`tagBody`): nothing, text, a text block
on the deeper lines, or one more tag after a colon (`tagLine`).

* `tagName?_ne_nil`: a tag name is not empty;
* `tagHead_reaches`: a head takes at least a character, so that a chain of tags
  ends;
* `tagLine_reaches`: so does a line.
-/

namespace SlotMarkup

/-- Letters, digits and the underscore, all of them ASCII. -/
def isWord (c : Char) : Bool := c.isAlphanum || c == '_'

/-- The characters of shorthands. -/
def isNamePart (c : Char) : Bool := isWord c || c == '-'

/-- The characters that join the words of a tag name. -/
def isNameJoint (c : Char) : Bool := c == '-' || c == ':'

/-- The characters of tag names. -/
def isTagNamePart (c : Char) : Bool := isWord c || isNameJoint c

/-- The names of control constructs, which no tag can have. -/
def keywords : List String :=
  ["append", "block", "case", "default", "doctype", "each", "else", "extends", "for", "if",
   "include", "mixin", "prepend", "unless", "when", "while", "yield"]

/-! ## Heads -/

/-- The tag name that a text starts with. It starts with a word character, goes on
    with hyphens and colons too, and does not end with them. -/
def tagName? (cs : List Char) : Option (List Char) :=
  if (cs.head?.map isWord).getD false then
    some (dropTrailing isNameJoint (cs.takeWhile isTagNamePart))
  else none

/-- The lexeme that a sigil makes of a name. -/
def sigil? : Char → Option (String → Lexeme)
  | '#' => some .idShorthand
  | '.' => some .classShorthand
  | _ => none

/-- The shorthand at `p`, if there is one, and the place after it. -/
def shorthand? (p : Place) : Option (Token × Place) :=
  match p.rest with
  | s :: c :: cs =>
    match sigil? s with
    | some lexeme =>
      if isNamePart c then
        let name := (c :: cs).takeWhile isNamePart
        let q := p.drop (name.length + 1)
        some (.read (lexeme (String.ofList name)) p q, q)
      else none
    | none => none
  | _ => none

/-- A shorthand takes at least its sigil. -/
theorem shorthand?_reaches {p q : Place} {t : Token} (h : shorthand? p = some (t, q)) :
    p.Reaches q ∧ q.rest.length < p.rest.length := by
  unfold shorthand? at h
  split at h
  · rename_i s c cs hp
    split at h
    · split at h
      · obtain rfl := (Prod.mk.inj (Option.some.inj h)).2
        exact ⟨p.reaches_drop _, Place.length_drop_lt (by simp [hp]) (Nat.succ_pos _)⟩
      · simp at h
    · simp at h
  · simp at h

/-- The run of shorthands and attribute lists at `p`. -/
def tagParts (p : Place) : Scan :=
  match _hs : shorthand? p with
  | some (t, q) => (tagParts q).after [t]
  | none =>
    if _hp : p.rest.head? = some '(' then
      match _hl : attributeList p with
      | .error e => .error e
      | .ok (ts, q) => (tagParts q).after ts
    else .ok ([], p)
termination_by p.rest.length
decreasing_by
  · exact (shorthand?_reaches _hs).2
  · exact (attributeList_reaches (fun h => by simp [h] at _hp) _hl).2

/-- The head of a tag: its name or a shorthand, and the run of parts after it. -/
def tagHead (p : Place) : Scan :=
  match tagName? p.rest with
  | some name =>
    let q := p.drop name.length
    if String.ofList name ∈ keywords then
      .error (.between (.unsupportedKeyword (String.ofList name)) p q)
    else (tagParts q).after [.read (.tag (String.ofList name)) p q]
  | none =>
    match shorthand? p with
    | some (t, q) => (tagParts q).after [t]
    | none => .error (.here .expectedTag p)

/-- No character of a word is a joint between the words of a name. -/
theorem isNameJoint_eq_false {c : Char} (h : isWord c = true) : isNameJoint c = false := by
  by_cases h1 : c = '-'
  · exact absurd (h1 ▸ h) (by decide)
  · by_cases h2 : c = ':'
    · exact absurd (h2 ▸ h) (by decide)
    · simp [isNameJoint, h1, h2]

/-- A name of a tag has a character, and so has the text it is read from. -/
theorem tagName?_ne_nil {cs name : List Char} (h : tagName? cs = some name) :
    cs ≠ [] ∧ 0 < name.length := by
  match cs, h with
  | [], h => simp [tagName?] at h
  | c :: cs, h =>
    by_cases hw : isWord c = true
    · have ht : isTagNamePart c = true := by simp [isTagNamePart, hw]
      simp only [tagName?, List.head?_cons, Option.map_some, Option.getD_some, hw, if_true,
        List.takeWhile_cons, ht, dropTrailing_cons (isNameJoint_eq_false hw),
        Option.some.injEq] at h
      simp [← h]
    · simp [tagName?, hw] at h

/-- Behind the name of a tag there may be nothing more in its head. -/
theorem reaches_tagParts {p q : Place} {ts : List Token} (h : tagParts p = .ok (ts, q)) :
    p.Reaches q := by
  fun_induction tagParts p generalizing ts with
  | case1 p t r hs ih =>
    obtain ⟨us, hus, -⟩ := Scan.after_eq_ok_iff.1 h
    exact (shorthand?_reaches hs).1.trans (ih hus)
  | case2 => simp at h
  | case3 p _ hp us r hl ih =>
    obtain ⟨vs, hvs, -⟩ := Scan.after_eq_ok_iff.1 h
    exact (attributeList_reaches (fun h => by simp [h] at hp) hl).1.trans (ih hvs)
  | case4 => exact (Prod.mk.inj (Except.ok.inj h)).2 ▸ .refl _

/-- A head takes at least the name of the tag, or a shorthand. -/
theorem tagHead_reaches {p q : Place} {ts : List Token} (h : tagHead p = .ok (ts, q)) :
    p.Reaches q ∧ q.rest.length < p.rest.length := by
  unfold tagHead at h
  split at h
  · rename_i name hn
    dsimp only at h
    split at h
    · simp at h
    · obtain ⟨us, hus, -⟩ := Scan.after_eq_ok_iff.1 h
      have hq := reaches_tagParts hus
      obtain ⟨hp, hl⟩ := tagName?_ne_nil hn
      exact ⟨(p.reaches_drop _).trans hq,
        Nat.lt_of_le_of_lt hq.length_le (Place.length_drop_lt hp hl)⟩
  · split at h
    · rename_i t r hs
      obtain ⟨us, hus, -⟩ := Scan.after_eq_ok_iff.1 h
      have hq := reaches_tagParts hus
      obtain ⟨hr, hl⟩ := shorthand?_reaches hs
      exact ⟨hr.trans hq, Nat.lt_of_le_of_lt hq.length_le hl⟩
    · simp at h

/-! ## Text blocks -/

/-- The tokens of one line of a text block: its text, unless it has none. -/
def textLineTokens (s : Stretch) : List Token :=
  if s.chars = [] then [] else [⟨.text (String.ofList s.chars), s.span⟩]

/-- The tokens of the lines of a text block after the first. -/
def textLinesTokens : List Stretch → List Token
  | [] => []
  | s :: more => ⟨.newline, s.start.point⟩ :: (textLineTokens s ++ textLinesTokens more)

/-- The text block opened by the dot at `p`, on a line indented by `indent`. -/
def textBlock (indent : Nat) (p : Place) : List Token × Place :=
  let (lines, next) := nestedLines indent p.nextLine
  let stop := ((lines.getLast?).map Stretch.stop).getD (p.drop 1)
  let content := match lines with
    | [] => []
    | s :: more => textLineTokens s ++ textLinesTokens more
  (.read .openTextBlock p (p.drop 1) :: (content ++ [⟨.closeTextBlock, stop.point⟩]), next)

/-- Reading a text block never goes back. -/
theorem reaches_textBlock (indent : Nat) (p : Place) : p.Reaches (textBlock indent p).2 :=
  p.reaches_nextLine.trans (reaches_nestedLines indent p.nextLine)

/-! ## Lines -/

/-- Whether the rest of the line is blank. -/
def restIsBlank (p : Place) : Bool := isBlankText p.line

/-- Whether `p` is at a line break or at the end of the text. A carriage return
    breaks a line here even if no line feed follows. -/
def atLineEnd (p : Place) : Bool :=
  match p.rest with
  | [] => true
  | c :: _ => c == '\n' || c == '\r'

/-- What follows the head of a tag on a line indented by `indent`, other than a
    colon. Space and text are the content of the tag, a dot opens a text block, and
    a slash says that there is no content. -/
def tagBody (indent : Nat) (p : Place) : Scan :=
  if atLineEnd p then .ok ([], p.nextLine)
  else match p.rest with
    | '.' :: _ =>
      if restIsBlank (p.drop 1) then .ok (textBlock indent p) else .error (.unexpected p)
    | ' ' :: _ =>
      let q := p.drop 1
      let text := q.line
      if isBlankText text then .ok ([], p.nextLine)
      else .ok ([.read (.text (String.ofList text)) q q.lineEnd], p.nextLine)
    | '/' :: _ =>
      if restIsBlank (p.drop 1) then .ok ([], p.nextLine) else .error (.unexpected (p.drop 1))
    | '=' :: _ => .error (.between .unsupportedCode p (p.drop 1))
    | '!' :: '=' :: _ => .error (.between .unsupportedCode p (p.drop 2))
    | '&' :: _ => .error (.between (.unsupportedConstruct "&attributes") p p.lineEnd)
    | _ => .error (.unexpected p)

/-- Reading on behind a head never goes back. -/
theorem reaches_tagBody {indent : Nat} {p q : Place} {ts : List Token}
    (h : tagBody indent p = .ok (ts, q)) : p.Reaches q := by
  unfold tagBody at h
  split at h
  · exact (Prod.mk.inj (Except.ok.inj h)).2 ▸ p.reaches_nextLine
  · split at h
    · split at h
      · have hq : (textBlock indent p).2 = q := congrArg Prod.snd (Except.ok.inj h)
        exact hq ▸ reaches_textBlock indent p
      · simp at h
    · dsimp only at h
      split at h <;> exact (Prod.mk.inj (Except.ok.inj h)).2 ▸ p.reaches_nextLine
    · split at h
      · exact (Prod.mk.inj (Except.ok.inj h)).2 ▸ p.reaches_nextLine
      · simp at h
    all_goals simp at h

/-- The tag behind a colon is later in the text. -/
theorem Place.reaches_innerTag (q : Place) : q.Reaches ((q.drop 1).skip isIndent) :=
  (q.reaches_drop 1).trans (Place.reaches_skip _ _)

/-- The tags of a line from `p` on, the line being indented by `indent`. -/
def tagLine (indent : Nat) (p : Place) : Scan :=
  match _hp : tagHead p with
  | .error e => .error e
  | .ok (head, q) =>
    if q.rest.head? = some ':' then
      let r := (q.drop 1).skip isIndent
      if atLineEnd r then .error (.here .expectedTag r)
      else (tagLine indent r).after (head ++ [.read .colon q (q.drop 1)])
    else (tagBody indent q).after head
termination_by p.rest.length
decreasing_by
  exact Nat.lt_of_le_of_lt q.reaches_innerTag.length_le (tagHead_reaches _hp).2

/-- A line with a tag takes at least the tag's head. -/
theorem tagLine_reaches {indent : Nat} {p q : Place} {ts : List Token}
    (h : tagLine indent p = .ok (ts, q)) : p.Reaches q ∧ q.rest.length < p.rest.length := by
  fun_induction tagLine indent p generalizing ts with
  | case1 => simp at h
  | case2 => simp at h
  | case3 p head r hp =>
    rename_i ih
    obtain ⟨us, hus, -⟩ := Scan.after_eq_ok_iff.1 h
    obtain ⟨hr, hl⟩ := tagHead_reaches hp
    have hs := hr.trans r.reaches_innerTag
    exact ⟨hs.trans (ih hus).1, Nat.lt_of_lt_of_le (ih hus).2 hs.length_le⟩
  | case4 p head r hp =>
    obtain ⟨us, hus, -⟩ := Scan.after_eq_ok_iff.1 h
    obtain ⟨hr, hl⟩ := tagHead_reaches hp
    have hq := reaches_tagBody hus
    exact ⟨hr.trans hq, Nat.lt_of_le_of_lt hq.length_le hl⟩

end SlotMarkup
