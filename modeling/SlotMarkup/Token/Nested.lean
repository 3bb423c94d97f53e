import SlotMarkup.Token.Scan

/-!
# Nested lines

A comment and a text block own the lines below them that are indented more
deeply, blank lines among them (`nestedRun`). Of these they keep the lines up to
the last one that is not blank, without the indentation that the kept lines share
(`nestedLines`).

* `reaches_nestedRun`: the lines are read one after the other.
-/

namespace SlotMarkup

/-- A part of a text, between two places. -/
structure Stretch where
  start : Place
  stop : Place
  deriving DecidableEq, Repr

namespace Stretch

/-- The characters of a stretch. -/
def chars (s : Stretch) : List Char := s.start.upTo s.stop

/-- The span of a stretch. -/
def span (s : Stretch) : Span := s.start.spanTo s.stop

end Stretch

/-- The starts of the lines from `p` on that are blank or indented by more than
    `base`, up to the first other line, and the start of that one. -/
def nestedRun (base : Nat) (p : Place) : List Place × Place :=
  if _hp : p.rest = [] then ([], p)
  else if isBlankText p.line || base < p.indent then
    let (lines, next) := nestedRun base p.nextLine
    (p :: lines, next)
  else ([], p)
termination_by p.rest.length
decreasing_by exact Place.nextLine_lt _hp

/-- A line without `width` characters of its indentation; nothing of a blank one. -/
def stripLine (width : Nat) (p : Place) : Stretch :=
  if isBlankText p.line then ⟨p, p⟩ else ⟨p.drop width, p.lineEnd⟩

/-- The lines nested below a line indented by `base`, and the start of the next
    line after them. -/
def nestedLines (base : Nat) (p : Place) : List Stretch × Place :=
  let (run, next) := nestedRun base p
  let kept := dropTrailing (fun q => isBlankText q.line) run
  let width := (((kept.filter fun q => !isBlankText q.line).map Place.indent).min?).getD 0
  (kept.map (stripLine width), next)

/-- A run of nested lines ends at its start or later. -/
theorem reaches_nestedRun (base : Nat) (p : Place) : p.Reaches (nestedRun base p).2 := by
  fun_induction nestedRun base p with
  | case1 => exact .refl _
  | case2 p _ _ lines next h ih => exact p.reaches_nextLine.trans (by simpa [h] using ih)
  | case3 => exact .refl _

/-- Collecting nested lines never goes back. -/
theorem reaches_nestedLines (base : Nat) (p : Place) : p.Reaches (nestedLines base p).2 :=
  reaches_nestedRun base p

end SlotMarkup
