import SlotMarkup.Proofs.ByteLines
import SlotMarkup.Proofs.DedentedLines

/-!
# Collected lines

The lines nested below a comment or a text block are collected in one loop over the bytes of the
text (`Source.collect`). It goes on over every line that is blank or indented deeply enough, and
notes how far the lines go that are kept: up to the last one that is not blank. Only then is it
known how much indentation these share.

What every round of it preserves is `Collects`: the lines it went over are the first ones, all of
them are nested, and those noted are all but the blank ones at their end. At the end of the loop no
nested line follows, so it went over the longest run of such lines, which is the run that the reader
by places finds (`nestedRun_eq`).

* `textLines`: the lines of a text, in terms of the text alone;
* `nestedLines_collected`: which lines are collected, and what of each.
-/

namespace SlotMarkup

/-! ## Lines of a text -/

/-- A list without its last element, if that is `a`. -/
def dropLastIf {α : Type} [DecidableEq α] (a : α) (l : List α) : List α :=
  if l.getLast? = some a then l.dropLast else l

/-- The lines of a text. A carriage return at the end of a line is no part of it, and behind the
    last line feed is no line if nothing follows. -/
def textLines (cs : List Char) : List (List Char) :=
  (dropLastIf [] (splitLines cs)).map (dropLastIf '\r')

theorem dropLastIf_cons {α : Type} [DecidableEq α] (a b : α) {l : List α} (h : l ≠ []) :
    dropLastIf a (b :: l) = b :: dropLastIf a l := by
  rw [dropLastIf, dropLastIf, List.getLast?_cons_of_ne_nil h]
  split
  · exact List.dropLast_cons_of_ne_nil h
  · rfl

theorem textLines_nil : textLines [] = [] := rfl

/-- A text without a line feed is one line, if it is not empty. -/
theorem textLines_of_not_mem {cs : List Char} (h : '\n' ∉ cs) (hne : cs ≠ []) :
    textLines cs = [dropLastIf '\r' cs] := by
  rw [textLines, splitLines_of_not_mem h, dropLastIf, if_neg (by simpa using hne),
    List.map_singleton]

/-- The first line ends at the first line feed. -/
theorem textLines_append {as : List Char} (h : '\n' ∉ as) (bs : List Char) :
    textLines (as ++ '\n' :: bs) = dropLastIf '\r' as :: textLines bs := by
  rw [textLines, splitLines_append, splitLines_of_not_mem h, List.singleton_append,
    dropLastIf_cons _ _ (splitLines_ne_nil bs), List.map_cons, ← textLines]

/-- From place to place, the lines are those of the text. -/
theorem map_line_lineStarts (p : Place) : (lineStarts p).map Place.line = textLines p.rest := by
  fun_induction lineStarts p with
  | case1 p hp => rw [hp, textLines_nil, List.map_nil]
  | case2 p hp ih =>
    have hline : p.line = dropLastIf '\r' (p.rest.takeWhile (· != '\n')) := rfl
    have hfeed : '\n' ∉ p.rest.takeWhile (· != '\n') := fun h => by simpa using mem_takeWhile h
    have hsplit := List.takeWhile_append_dropWhile (p := (· != '\n')) (l := p.rest)
    rw [List.map_cons, ih, p.rest_nextLine, hline]
    cases hrest : p.rest.dropWhile (· != '\n') with
    | nil =>
      rw [hrest, List.append_nil] at hsplit
      rw [hsplit] at hfeed ⊢
      rw [textLines_of_not_mem hfeed hp, List.drop_nil, textLines_nil]
    | cons c cs =>
      obtain rfl := eq_of_dropWhile_ne hrest
      rw [hrest] at hsplit
      conv => rhs; rw [← hsplit, textLines_append hfeed]
      rfl

/-! ## The run of nested lines -/

theorem Place.final_of_rest_nil {p : Place} (h : p.rest = []) : p.final = p := by
  rw [Place.final, h, List.length_nil, Place.drop_zero]

/-- All places of a text have the same end. -/
theorem Place.Reaches.final_eq {p q : Place} (h : p.Reaches q) : q.final = p.final := by
  have hfinal (r : Place) : r.final = ⟨r.offset + byteSize r.rest, []⟩ := by
    rw [Place.final, Place.drop, List.take_length, List.drop_length]
  rw [hfinal, hfinal, ← h.append_upTo, h.offset_eq, byteSize_append, Nat.add_assoc]

/-- Whether the line at a place is blank or indented by more than `base`. -/
def isNested (base : Nat) (q : Place) : Bool := isBlankText q.line || base < indentWidth q.line

/-- The lines of a nested run are as many of the next lines as are nested, one after the other. -/
theorem nestedRun_eq (base : Nat) (p : Place) : nestedRun base p =
    ((lineStarts p).takeWhile (isNested base),
      ((lineStarts p).dropWhile (isNested base)).headD p.final) := by
  fun_induction nestedRun base p with
  | case1 p hp =>
    rw [lineStarts_of_rest_nil hp, Place.final_of_rest_nil hp]
    rfl
  | case2 p hp hnested lines next hrun ih =>
    have hq : isNested base p = true := by rwa [isNested, p.indentWidth_line]
    rw [hrun, Prod.mk.injEq] at ih
    rw [lineStarts, dif_neg hp, List.takeWhile_cons_of_pos hq, List.dropWhile_cons_of_pos hq, ih.1,
      ih.2, p.reaches_nextLine.final_eq]
  | case3 p hp hnested =>
    have hq : ¬isNested base p = true := by rwa [isNested, p.indentWidth_line]
    rw [lineStarts, dif_neg hp, List.takeWhile_cons_of_neg hq, List.dropWhile_cons_of_neg hq]
    rfl

/-! ## What is kept -/

/-- What is collected of a line, and from where to where: nothing of a blank one, and of any other
    one what stands behind the first `width` characters, which are indentation. -/
inductive CollectedAs (width : Nat) (q : Place) (s : Stretch) : Prop
  | blank (hb : isBlankText q.line = true) (hplace : s = ⟨q, q⟩) (hchars : s.chars = [])
  | stripped {margin : List Char} (hb : isBlankText q.line = false)
      (hplace : s = ⟨q.drop width, q.lineEnd⟩) (hwidth : margin.length = width)
      (hmargin : ∀ c ∈ margin, isIndent c = true) (hline : q.line = margin ++ s.chars)
      (hindent : indentWidth q.line = width + indentWidth s.chars)

/-- A line that has the columns is collected with these taken off. -/
theorem collectedAs_stripLine {width : Nat} {q : Place}
    (h : isBlankText q.line = false → width ≤ q.indent) :
    CollectedAs width q (stripLine width q) := by
  have hchars := stripLine_chars h
  by_cases hb : isBlankText q.line = true
  · rw [if_pos hb] at hchars
    exact .blank hb (by rw [stripLine, if_pos hb]) hchars
  · have hwidth : width ≤ indentWidth q.line := q.indentWidth_line ▸ h (by simpa using hb)
    rw [if_neg hb] at hchars
    refine .stripped (by simpa using hb) (by rw [stripLine, if_neg hb]) ?_
      (isIndent_of_mem_take hwidth) ?_ ?_
    · exact List.length_take_of_le (Nat.le_trans hwidth (List.takeWhile_prefix _).length_le)
    · rw [hchars, List.take_append_drop]
    · rw [hchars, indentWidth_drop hwidth]

/-- The widths of the indentation of those lines that are not blank. -/
def widths (lines : List Place) : List Nat :=
  (lines.filter fun q => !isBlankText q.line).map fun q => indentWidth q.line

theorem mem_widths {lines : List Place} {q : Place} (hq : q ∈ lines)
    (hb : isBlankText q.line = false) : indentWidth q.line ∈ widths lines :=
  List.mem_map_of_mem (List.mem_filter.2 ⟨hq, by simp [hb]⟩)

/-- Blank lines have no width. -/
theorem widths_append_blanks (lines : List Place) {blanks : List Place}
    (h : ∀ q ∈ blanks, isBlankText q.line = true) : widths (lines ++ blanks) = widths lines := by
  have hnone : (blanks.filter fun q => !isBlankText q.line) = [] := by simpa using h
  rw [widths, List.filter_append, hnone, List.append_nil, widths]

/-- If a line is not blank, there is one that is indented by the smallest width. -/
theorem min?_widths {lines : List Place} {q : Place} (hq : q ∈ lines)
    (hb : isBlankText q.line = false) :
    ((widths lines).min?).getD 0 ∈ widths lines ∧
      ∀ w ∈ widths lines, ((widths lines).min?).getD 0 ≤ w := by
  have hne := List.ne_nil_of_mem (mem_widths hq hb)
  obtain ⟨w, hw⟩ := Option.isSome_iff_exists.1 (List.isSome_min?_iff.2 hne)
  rw [hw, Option.getD_some]
  exact List.min?_eq_some_iff.1 hw

/-- A line that is indented as little as any is left without indentation. -/
theorem CollectedAs.outer {q : Place} {s : Stretch} (h : CollectedAs (indentWidth q.line) q s)
    (hb : isBlankText q.line = false) : s.chars ≠ [] ∧ ∀ c ∈ s.chars.head?, isIndent c = false := by
  cases h with
  | blank hblank => simp [hb] at hblank
  | @stripped margin _ _ _ hmargin hline hindent =>
    cases hchars : s.chars with
    | nil =>
      -- A line of indentation alone is blank.
      have hblank : isBlankText q.line = true := by
        rw [hline, hchars, List.append_nil]
        exact List.all_eq_true.2 fun c hc => isBlank_of_isIndent (hmargin c hc)
      simp [hb] at hblank
    | cons c cs =>
      refine ⟨List.cons_ne_nil c cs, fun d hd => ?_⟩
      obtain rfl : c = d := Option.some.inj hd
      cases hc : isIndent c with
      | false => rfl
      | true =>
        rw [hchars, indentWidth.eq_def (c :: cs), List.takeWhile_cons_of_pos hc,
          List.length_cons] at hindent
        omega

/-- The lines of a run up to the last one that is not blank. -/
def keptLines (run : List Place) : List Place := dropTrailing (fun q => isBlankText q.line) run

/-- The lines that are not kept are blank ones at the end. -/
theorem keptLines_append (run : List Place) : ∃ blanks, run = keptLines run ++ blanks ∧
    ∀ q ∈ blanks, isBlankText q.line = true := by
  refine ⟨_, (dropTrailing_append_takeWhile (fun q : Place => isBlankText q.line) run).symm, ?_⟩
  intro q hq
  exact mem_takeWhile (f := fun q : Place => isBlankText q.line) (List.mem_reverse.1 hq)

/-- The last line that is kept is not blank. -/
theorem getLast?_keptLines {run : List Place} {q : Place} (h : q ∈ (keptLines run).getLast?) :
    isBlankText q.line = false := getLast?_dropTrailing (f := fun q : Place => isBlankText q.line) h

/-- Each line that is kept loses the least of their widths. -/
theorem fst_nestedLines (base : Nat) (p : Place) : (nestedLines base p).1 =
    (keptLines (nestedRun base p).1).map
      (stripLine (((widths (keptLines (nestedRun base p).1)).min?).getD 0)) := by
  have hindent : Place.indent = fun q => indentWidth q.line :=
    funext fun q => q.indentWidth_line.symm
  rw [nestedLines, widths, keptLines, ← hindent]

/-- Collected are the lines of the run that are kept, each without the smallest width. -/
theorem nestedLines_kept (base : Nat) (p : Place) :
    ∃ kept blanks width, (nestedRun base p).1 = kept ++ blanks ∧
      (∀ q ∈ blanks, isBlankText q.line = true) ∧
      (∀ q ∈ kept.getLast?, isBlankText q.line = false) ∧
      List.Forall₂ (CollectedAs width) kept (nestedLines base p).1 ∧
      (kept ≠ [] → (width ∈ widths (nestedRun base p).1 ∧
          ∀ w ∈ widths (nestedRun base p).1, width ≤ w) ∧
        ∃ s ∈ (nestedLines base p).1, s.chars ≠ [] ∧ ∀ c ∈ s.chars.head?, isIndent c = false) := by
  rw [fst_nestedLines]
  generalize (nestedRun base p).1 = run
  obtain ⟨blanks, hsplit, hblanks⟩ := keptLines_append run
  have hwidths : widths run = widths (keptLines run) := by
    conv => lhs; rw [hsplit]
    exact widths_append_blanks _ hblanks
  have hcollected : ∀ q ∈ keptLines run, CollectedAs (((widths (keptLines run)).min?).getD 0) q
      (stripLine (((widths (keptLines run)).min?).getD 0) q) := fun q hq =>
    collectedAs_stripLine fun hb =>
      q.indentWidth_line ▸ List.min?_getD_le_of_mem (mem_widths hq hb)
  refine ⟨keptLines run, blanks, _, hsplit, hblanks, fun q => getLast?_keptLines,
    List.forall₂_map_right_iff.2 (List.forall₂_same.2 hcollected), fun hne => ?_⟩
  have hleast := min?_widths (List.getLast_mem hne)
    (getLast?_keptLines (List.getLast?_eq_some_getLast hne))
  obtain ⟨q, hq, hwidth⟩ := List.mem_map.1 hleast.1
  obtain ⟨hq, hb⟩ := List.mem_filter.1 hq
  rw [hwidths]
  have houter := hcollected q hq
  rw [← hwidth] at houter
  exact ⟨hleast, _, List.mem_map_of_mem hq, hwidth ▸ houter.outer (by simpa using hb)⟩

/-! ## The loop -/

namespace Source

/-- Where the loop over nested lines has come to. -/
structure Collector where
  /-- The start of the next line. -/
  pos : Nat
  /-- The lines it went over. -/
  raw : List RawLine := []
  /-- The number of those up to the last one that is not blank. -/
  kept : Nat := 0

variable (src : Source)

/-- One round of the loop, or nothing if it is over. -/
def collectLine (base : Nat) (c : Collector) : Checked (Option Collector) := do
  if c.pos < src.size then
    let stop ← src.lineEnd c.pos
    let line := spell (← src.slice c.pos stop)
    if isBlankText line then
      pure (some ⟨← src.nextLine c.pos, c.raw ++ [⟨c.pos, stop, none⟩], c.kept⟩)
    else
      let width := indentWidth line
      if width ≤ base then pure none
      else
        let raw := c.raw ++ [⟨c.pos, stop, some width⟩]
        pure (some ⟨← src.nextLine c.pos, raw, raw.length⟩)
  else pure none

/-- Goes round as long as there is a nested line. -/
def collect (base : Nat) (c : Collector) : Checked Collector := do
  match ← src.collectLine base c with
  | none => pure c
  | some d => src.onward c.pos d.pos fun _ => collect base d
termination_by src.size - c.pos

/-- The lines nested below a line indented by `base`, and the start of the line behind them. -/
def collectNested (base pos : Nat) : Checked (List NestedLine × Nat) := do
  let c ← src.collect base { pos }
  let kept := c.raw.take c.kept
  let width := ((kept.filterMap (·.width)).min?).getD 0
  pure (← kept.mapM (src.stripLine width), c.pos)

end Source

open HasPlace (rawLine nestedLine)

/-- What every round of the loop preserves. From the line at `p` to the one at `q` it went over the
    lines `run`. -/
structure Collects (base : Nat) (p : Place) (c : Source.Collector) (run : List Place)
    (q : Place) : Prop where
  reached : p.Reaches q
  pos : c.pos = q.offset
  raw : c.raw = run.map rawLine
  kept : c.kept = (keptLines run).length
  starts : lineStarts p = run ++ lineStarts q
  nested : ∀ r ∈ run, isNested base r = true

/-- The next line, if there is one, is not nested. -/
def EndsRun (base : Nat) (q : Place) : Prop :=
  ∀ r ∈ (lineStarts q).head?, isNested base r = false

section Loop

variable {src : Source} {base : Nat} {p q : Place} {c : Source.Collector} {run : List Place}

theorem keptLines_concat_blank (run : List Place) (hb : isBlankText q.line = true) :
    keptLines (run ++ [q]) = keptLines run := by
  rw [keptLines, dropTrailing_append_singleton, if_pos hb, keptLines]

theorem keptLines_concat (run : List Place) (hb : isBlankText q.line = false) :
    keptLines (run ++ [q]) = run ++ [q] := by
  rw [keptLines, dropTrailing_append_singleton, if_neg (by simp [hb])]

theorem collects_start (base : Nat) (p : Place) : Collects base p { pos := p.offset } [] p where
  reached := .refl p
  pos := rfl
  raw := rfl
  kept := rfl
  starts := (List.nil_append _).symm
  nested := List.forall_mem_nil _

namespace Collects

/-- The loop goes over a nested line. -/
theorem concat {d : Source.Collector} (h : Collects base p c run q) (hne : q.rest ≠ [])
    (hq : isNested base q = true) (hpos : d.pos = q.nextLine.offset)
    (hraw : d.raw = c.raw ++ [rawLine q]) (hkept : d.kept = (keptLines (run ++ [q])).length) :
    Collects base p d (run ++ [q]) q.nextLine where
  reached := h.reached.trans q.reaches_nextLine
  pos := hpos
  raw := by rw [hraw, h.raw, List.map_append, List.map_singleton]
  kept := hkept
  starts := by
    rw [h.starts, lineStarts.eq_def q, dif_neg hne, List.append_assoc, List.singleton_append]
  nested := List.forall_mem_append.2 ⟨h.nested, List.forall_mem_singleton.2 hq⟩

/-- A round of the loop goes over the next line if that is nested, and is the last one otherwise. -/
theorem step (h : Collects base p c run q) (hp : HasPlace src p) :
    (EndsRun base q ∧ src.collectLine base c = pure none) ∨
    ∃ d, src.collectLine base c = pure (some d) ∧ q.rest ≠ [] ∧
      Collects base p d (run ++ [q]) q.nextLine := by
  have hplace := hp.reached h.reached
  by_cases hne : q.rest = []
  · refine .inl ⟨by simp [EndsRun, lineStarts_of_rest_nil hne], ?_⟩
    rw [Source.collectLine, h.pos, if_neg fun hlt => hplace.lt_size_iff.1 hlt hne]
  rw [Source.collectLine, h.pos, if_pos (hplace.lt_size_iff.2 hne), hplace.lineEnd_eq, pure_bind,
    hplace.slice_line, pure_bind]
  dsimp only
  rw [isBlankText_spell, indentWidth_spell, hplace.nextLine_eq, pure_bind, pure_bind]
  by_cases hb : isBlankText q.line = true
  · have hraw : rawLine q = ⟨q.offset, q.lineEnd.offset, none⟩ := by rw [rawLine, if_pos hb]
    rw [if_pos hb]
    refine .inr ⟨_, rfl, hne, h.concat hne (by simp [isNested, hb]) rfl (by rw [hraw]) ?_⟩
    rw [keptLines_concat_blank run hb]
    exact h.kept
  rw [if_neg hb]
  have hraw : rawLine q = ⟨q.offset, q.lineEnd.offset, some (indentWidth q.line)⟩ := by
    rw [rawLine, if_neg hb, q.indentWidth_line]
  by_cases hle : indentWidth q.line ≤ base
  · rw [if_pos hle]
    refine .inl ⟨?_, rfl⟩
    rw [EndsRun, lineStarts, dif_neg hne]
    rintro r ⟨rfl⟩
    simp [isNested, hb, hle]
  · rw [if_neg hle]
    refine .inr ⟨_, rfl, hne, h.concat hne (by simp [isNested, Nat.lt_of_not_le hle]) rfl
      (by rw [hraw]) ?_⟩
    rw [keptLines_concat run (by simpa using hb), h.raw, List.length_append, List.length_map,
      List.length_append]
    rfl

/-- The loop ends behind the last line of the run. -/
theorem collect (h : Collects base p c run q) (hp : HasPlace src p) :
    ∃ d run' q', src.collect base c = pure d ∧ Collects base p d run' q' ∧ EndsRun base q' := by
  -- By induction on the text that is left.
  induction hn : q.rest.length using Nat.strongRecOn generalizing c run q with
  | ind n ih =>
    subst hn
    rw [Source.collect]
    rcases h.step hp with ⟨hends, hline⟩ | ⟨d, hline, hne, hd⟩
    · rw [hline, pure_bind]
      exact ⟨c, run, q, rfl, h, hends⟩
    · rw [hline, pure_bind]
      dsimp only
      have hlt := Place.nextLine_lt hne
      rw [h.pos, hd.pos, (hp.reached h.reached).onward_eq q.reaches_nextLine hlt]
      exact ih _ hlt hd rfl

/-- At its end the loop has gone over the lines of the nested run. -/
theorem eq_nestedRun (h : Collects base p c run q) (hends : EndsRun base q) :
    nestedRun base p = (run, q) := by
  have hnext : (lineStarts q).headD p.final = q := by
    by_cases hne : q.rest = []
    · rw [lineStarts_of_rest_nil hne, List.headD_nil, ← h.reached.final_eq,
        Place.final_of_rest_nil hne]
    · rw [lineStarts, dif_neg hne, List.headD_cons]
  have htake := takeWhile_append_stop h.nested hends
  have hsplit := List.takeWhile_append_dropWhile (p := isNested base) (l := run ++ lineStarts q)
  rw [htake] at hsplit
  rw [SlotMarkup.nestedRun_eq, h.starts, htake, List.append_cancel_left hsplit, hnext]

/-- What the loop noted are the lines of the run that are kept. -/
theorem take_raw (h : Collects base p c run q) :
    c.raw.take c.kept = dropTrailing (·.width.isNone) (run.map rawLine) := by
  obtain ⟨blanks, hsplit, -⟩ := keptLines_append run
  have htake := List.prefix_iff_eq_take.1 ⟨blanks, hsplit.symm⟩
  rw [h.raw, h.kept, ← List.map_take, ← htake, keptLines]
  exact map_dropTrailing fun r _ => by rw [rawLine]; split <;> simp [*]

end Collects

/-- The loop over the bytes collects the nested lines, and never looks or cuts where nothing is. -/
theorem HasPlace.collectNested_eq (base : Nat) (h : HasPlace src p) :
    src.collectNested base p.offset =
      pure ((nestedLines base p).1.map nestedLine, (nestedLines base p).2.offset) := by
  obtain ⟨d, run, q, hd, hcollects, hends⟩ := (collects_start base p).collect h
  rw [← h.nestedLines_eq base, Source.collectNested, hd, pure_bind, Source.nestedLines,
    h.nestedRun_eq, pure_bind, hcollects.eq_nestedRun hends]
  dsimp only
  rw [hcollects.take_raw, hcollects.pos]

end Loop

/-! ## Nested lines -/

/-- Collecting goes over the longest run of lines that are blank or indented by more than `base`,
    to the start of the next line or the end of the text. Collected is the run up to its last line
    that is not blank. Blank lines lose everything, and all others the smallest indentation among
    them, so that one of them is left without any. -/
theorem nestedLines_collected (text : String) (n base : Nat) :
    let p := (Place.ofText text).drop n
    let run := (lineStarts p).takeWhile (isNested base)
    let lines := (nestedLines base p).1
    let next := (nestedLines base p).2
    (lineStarts p).map Place.line = textLines p.rest ∧
    Source.collectNested ⟨text⟩ base p.offset = pure (lines.map nestedLine, next.offset) ∧
    next = ((lineStarts p).dropWhile (isNested base)).headD p.final ∧
    ∃ kept blanks width, run = kept ++ blanks ∧
      (∀ q ∈ blanks, isBlankText q.line = true) ∧
      (∀ q ∈ kept.getLast?, isBlankText q.line = false) ∧
      List.Forall₂ (CollectedAs width) kept lines ∧
      (lines ≠ [] → (width ∈ widths run ∧ ∀ w ∈ widths run, width ≤ w) ∧
        ∃ s ∈ lines, s.chars ≠ [] ∧ ∀ c ∈ s.chars.head?, isIndent c = false) := by
  intro p run lines next
  have hplace : HasPlace ⟨text⟩ p := Place.reaches_drop _ n
  have hrun : nestedRun base p = (run, _) := nestedRun_eq base p
  obtain ⟨kept, blanks, width, hsplit, hblanks, hlast, hlines, hleast⟩ := nestedLines_kept base p
  rw [hrun] at hsplit hleast
  refine ⟨map_line_lineStarts p, hplace.collectNested_eq base, congrArg Prod.snd hrun, kept, blanks,
    width, hsplit, hblanks, hlast, hlines, fun hne => hleast ?_⟩
  rintro rfl
  exact hne (List.forall₂_nil_left_iff.1 hlines)

/-- Tabs next to spaces, carriage returns, blank lines within and behind, and a neighbour. -/
theorem nestedLines_collected_mixed :
    let text := "x.\n\t\tb\r\n \r\n\t  c\n\t\x0c\n d"
    let p := (Place.ofText text).drop 3
    (lineStarts p).map Place.line =
      [['\t', '\t', 'b'], [' '], ['\t', ' ', ' ', 'c'], ['\t', '\x0c'], [' ', 'd']] ∧
    (nestedLines 1 p).1.map Stretch.chars = [['b'], [], [' ', 'c']] ∧
    Source.collectNested ⟨text⟩ 1 3 = pure ((nestedLines 1 p).1.map nestedLine, 19) ∧
    ∃ s ∈ (nestedLines 1 p).1, s.chars ≠ [] ∧ ∀ c ∈ s.chars.head?, isIndent c = false := by
  intro text p
  obtain ⟨hlines, hloop, -, kept, blanks, width, -, -, -, -, hleast⟩ :=
    nestedLines_collected text 3 1
  have hstart : p.offset = 3 := by decide +kernel
  have hnext : (nestedLines 1 p).2.offset = 19 := by decide +kernel
  rw [hstart, hnext] at hloop
  exact ⟨hlines.trans (by decide +kernel), by decide +kernel, hloop, (hleast (by decide +kernel)).2⟩

end SlotMarkup
