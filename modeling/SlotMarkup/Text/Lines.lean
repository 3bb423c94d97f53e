/-!
# Lines

A text is cut into lines at its line feeds, so that it has one line more than
it has line feeds (`splitLines`), and lines are joined by line feeds
(`joinLines`). A line's *indentation* is its leading run of spaces and tabs.

* `joinLines_splitLines`: cutting loses nothing.
-/

namespace SlotMarkup

/-- The lines of a text, without the line feeds between them. -/
def splitLines (cs : List Char) : List (List Char) :=
  cs.foldr (fun c ls => if c = '\n' then [] :: ls else ls.modifyHead (c :: ·)) [[]]

/-- One text of several lines, with a line feed between each two. -/
def joinLines : List (List Char) → List Char
  | [] => []
  | [l] => l
  | l :: ls => l ++ '\n' :: joinLines ls

/-- Indentation is written with spaces and tabs. -/
def isIndent (c : Char) : Bool := c == ' ' || c == '\t'

/-- The width of a line's indentation, a tab counting as one. -/
def indentWidth (line : List Char) : Nat := (line.takeWhile isIndent).length

@[simp] theorem splitLines_nil : splitLines [] = [[]] := rfl

theorem splitLines_cons (c : Char) (cs : List Char) : splitLines (c :: cs) =
    if c = '\n' then [] :: splitLines cs else (splitLines cs).modifyHead (c :: ·) := rfl

/-- Even the empty text is a line. -/
theorem splitLines_ne_nil (cs : List Char) : splitLines cs ≠ [] := by
  induction cs with
  | nil => simp
  | cons c cs ih =>
    by_cases h : c = '\n'
    · simp [splitLines_cons, h]
    · cases hs : splitLines cs with
      | nil => exact absurd hs ih
      | cons l ls => simp [splitLines_cons, h, hs]

theorem joinLines_cons_cons (l m : List Char) (ls : List (List Char)) :
    joinLines (l :: m :: ls) = l ++ '\n' :: joinLines (m :: ls) := rfl

/-- A character in front of the first line is in front of all of them. -/
theorem joinLines_modifyHead_cons (c : Char) {ls : List (List Char)} (h : ls ≠ []) :
    joinLines (ls.modifyHead (c :: ·)) = c :: joinLines ls := by
  match ls, h with
  | [l], _ => rfl
  | l :: m :: ls, _ => rfl

/-- Cut at its line feeds and joined by line feeds, a text is what it was. -/
theorem joinLines_splitLines (cs : List Char) : joinLines (splitLines cs) = cs := by
  induction cs with
  | nil => rfl
  | cons c cs ih =>
    by_cases h : c = '\n'
    · subst h
      cases hs : splitLines cs with
      | nil => exact absurd hs (splitLines_ne_nil cs)
      | cons l ls =>
        rw [splitLines_cons, if_pos rfl, hs, joinLines_cons_cons, ← hs, ih, List.nil_append]
    · rw [splitLines_cons, if_neg h, joinLines_modifyHead_cons c (splitLines_ne_nil cs), ih]

end SlotMarkup
