import SlotMarkup.Proofs.AcceptedLines
import SlotMarkup.Proofs.LongerTexts
import SlotMarkup.Proofs.RelabeledItems

/-!
# Lines in longer texts

A text goes on with a line feed and another text. The lines of the first one are read as before,
and then those of the second as if nothing came before them (`Resumes`). Only a comment or a text
block that goes on up to the end of the first text can take lines of the second one: blank ones,
which it drops, and then the first line if that is nested (`ReadsOn`).

* `nestedLines_resumes`: what is nested below a line stays the same;
* `lineContent_resumes`: so do the tokens of a line;
* `openingLines_append`: the opening lines are those of both texts, if the second one starts with
  an unindented line.
-/

namespace SlotMarkup

/-! ## What is kept of nested lines -/

/-- The columns of a line do not depend on its break. -/
theorem indentWidth_lineOf (cs : List Char) : indentWidth (lineOf cs) = indentWidth cs :=
  Place.indentWidth_line ⟨0, cs⟩

/-- Lines without the blank ones at the end and without the indentation that they share. -/
def blockOf (rows : List (List Char)) : List (List Char) :=
  let kept := dropTrailing isBlankText rows
  let width := (((kept.filter fun l => !isBlankText l).map indentWidth).min?).getD 0
  kept.map fun l => if isBlankText l then [] else l.drop width

/-- What is kept of nested lines depends on the lines alone, not on how they end. -/
theorem blockLines_eq (starts : List (List Char)) :
    blockLines starts = blockOf (starts.map lineOf) := by
  have hkept := map_dropTrailing (f := fun cs => isBlankText (lineOf cs)) (g := isBlankText)
    (e := lineOf) (l := starts) fun _ _ => rfl
  rw [blockLines, blockOf, ← hkept]
  generalize dropTrailing (fun cs => isBlankText (lineOf cs)) starts = kept
  rw [blockWidth, List.filter_map, List.map_map, List.map_map,
    show indentWidth ∘ lineOf = indentWidth from funext indentWidth_lineOf]
  rfl

/-- Blank lines at the end are not kept. -/
theorem blockOf_append (rows : List (List Char)) {blanks : List (List Char)}
    (h : ∀ l ∈ blanks, isBlankText l = true) : blockOf (rows ++ blanks) = blockOf rows := by
  rw [blockOf, blockOf, dropTrailing_append_all rows h]

/-! ## The first line -/

namespace Place

/-- The first line from here on that is not blank, or the end of the text. -/
def firstLine (p : Place) : Place :=
  if _hp : p.rest = [] then p
  else if isBlankText p.line then p.nextLine.firstLine
  else p
termination_by p.rest.length
decreasing_by exact nextLine_lt _hp

variable {p p' : Place}

theorem line_of_rest (h : p'.rest = p.rest) : p'.line = p.line := by rw [line, line, h]

theorem indent_of_rest (h : p'.rest = p.rest) : p'.indent = p.indent := by rw [indent, indent, h]

theorem nextLine_of_rest (h : p'.rest = p.rest) : p'.nextLine.rest = p.nextLine.rest := by
  rw [nextLine, nextLine, rest_drop, rest_drop, h]

theorem firstLine_of_nil (h : p.rest = []) : p.firstLine = p := by rw [firstLine, dif_pos h]

/-- Blank lines are gone over. -/
theorem firstLine_of_blank (hp : p.rest ≠ []) (hb : isBlankText p.line = true) :
    p.firstLine = p.nextLine.firstLine := by
  rw [firstLine, dif_neg hp, if_pos hb]

/-- A line that is not blank is the first one. -/
theorem firstLine_of_not_blank (hb : isBlankText p.line = false) : p.firstLine = p := by
  rw [firstLine, if_neg (by simp [hb])]
  split <;> rfl

/-- Which line is the first depends on the text alone. -/
theorem firstLine_congr (h : p'.rest = p.rest) : p'.firstLine.rest = p.firstLine.rest := by
  fun_induction firstLine p generalizing p' with
  | case1 p hp => rw [firstLine_of_nil (h.trans hp), h]
  | case2 p hp hb ih =>
    rw [firstLine_of_blank (h ▸ hp) (line_of_rest h ▸ hb)]
    exact ih (nextLine_of_rest h)
  | case3 p hp hb => rw [firstLine_of_not_blank (line_of_rest h ▸ by simpa using hb), h]

theorem firstLine_firstLine (p : Place) : p.firstLine.firstLine = p.firstLine := by
  fun_induction firstLine p with
  | case1 p hp => exact firstLine_of_nil hp
  | case2 p hp hb ih => exact ih
  | case3 p hp hb => exact firstLine_of_not_blank (by simpa using hb)

end Place

/-- Blank lines open nothing. -/
theorem openingLinesFrom_firstLine (p : Place) :
    openingLinesFrom p.firstLine = openingLinesFrom p := by
  fun_induction Place.firstLine p with
  | case1 => rfl
  | case2 p hp hb ih => rw [ih, openingLinesFrom.eq_def p, dif_neg hp, if_pos hb]
  | case3 => rfl

/-- A run of nested lines takes a first line that is nested. -/
theorem nestedRun_overruns {base : Nat} {p : Place} (h : base < p.firstLine.indent) :
    (nestedRun base p).2.rest.length < p.firstLine.rest.length := by
  fun_induction Place.firstLine p with
  | case1 p hp => simp [Place.indent, indentWidth, hp] at h
  | case2 p hp hb ih =>
    rw [nestedRun, dif_neg hp, if_pos (by simp [hb])]
    exact ih h
  | case3 p hp hb =>
    rw [nestedRun, dif_neg hp, if_pos (by simp [h])]
    exact Nat.lt_of_le_of_lt (reaches_nestedRun base p.nextLine).length_le (Place.nextLine_lt hp)

/-- Before a line that is not nested, no lines are but blank ones. -/
theorem nestedRun_firstLine {base : Nat} {p : Place} (h : p.firstLine.indent ≤ base) :
    (∀ q ∈ (nestedRun base p).1, isBlankText q.line = true) ∧
      (nestedRun base p).2 = p.firstLine := by
  fun_induction Place.firstLine p with
  | case1 p hp =>
    rw [nestedRun, dif_pos hp]
    exact ⟨by simp, rfl⟩
  | case2 p hp hb ih =>
    obtain ⟨hblank, hnext⟩ := ih h
    rw [nestedRun, dif_neg hp, if_pos (by simp [hb])]
    exact ⟨List.forall_mem_cons.2 ⟨hb, hblank⟩, hnext⟩
  | case3 p hp hb =>
    rw [nestedRun, dif_neg hp, if_neg (by simpa [hb] using h)]
    exact ⟨by simp, rfl⟩

/-! ## Places -/

section Resumes

variable {b : List Char} {p q p' : Place}

/-- Where reading goes on at `p` in a text, it goes on at `p'` if the text has one more line
    feed and `b` after it. Behind `p` there is more of the text, or else what comes next are the
    lines of `b`. -/
def Resumes (b : List Char) (p p' : Place) : Prop :=
  p' = p.extend ('\n' :: b) ∨
    (p.rest = [] ∧ p'.firstLine.rest = (Place.mk 0 b).firstLine.rest)

theorem resumes_extend (b : List Char) (p : Place) : Resumes b p (p.extend ('\n' :: b)) := .inl rfl

/-- What is read up to a line feed at most stays as it was with lines behind it. -/
theorem takeWhile_extend {f : Char → Bool} (hf : f '\n' = false) (cs : List Char) :
    (cs ++ '\n' :: b).takeWhile f = cs.takeWhile f :=
  takeWhile_append_of_head (by rintro c ⟨rfl⟩; exact hf)

namespace Place

/-- Lines behind a text do not change its last line. -/
@[simp] theorem line_extend : (p.extend ('\n' :: b)).line = p.line := by
  rw [line, line, rest_extend, takeWhile_extend (by decide)]

@[simp] theorem indent_extend : (p.extend ('\n' :: b)).indent = p.indent := by
  rw [indent, indent, indentWidth, indentWidth, rest_extend, takeWhile_extend (by decide)]

/-- The content of a line starts at the same place. -/
theorem drop_indent_extend :
    (p.extend ('\n' :: b)).drop p.indent = (p.drop p.indent).extend ('\n' :: b) :=
  drop_extend (List.takeWhile_prefix _).length_le

@[simp] theorem mixesIndent_extend : mixesIndent (p.extend ('\n' :: b)) = mixesIndent p := by
  rw [mixesIndent, mixesIndent, rest_extend, takeWhile_extend (by decide)]

theorem rest_extend_ne_nil : (p.extend ('\n' :: b)).rest ≠ [] := by simp

/-- After the last line comes the second text. -/
theorem nextLine_extend : Resumes b p.nextLine (p.extend ('\n' :: b)).nextLine := by
  by_cases hfeed : '\n' ∈ p.rest
  · refine .inl ?_
    have hmem := mem_skip (f := (· != '\n')) hfeed (by decide)
    have hlen := List.length_pos_of_mem hmem
    rw [skip, rest_drop, List.length_drop] at hlen
    rw [nextLine, nextLine, rest_extend, takeWhile_extend (by decide)]
    exact drop_extend (by omega)
  · refine .inr ⟨?_, ?_⟩
    · exact rest_nextLine_of_append (List.append_nil _).symm hfeed (by simp [EndsRow])
    · refine firstLine_congr ?_
      exact rest_nextLine_of_append rest_extend hfeed (by rintro c ⟨rfl⟩; rfl)

end Place

/-- Before its end, a text with lines behind it is read as it was. -/
theorem Resumes.of_ne_nil (h : Resumes b p p') (hp : p.rest ≠ []) : p' = p.extend ('\n' :: b) :=
  h.resolve_right fun hnil => hp hnil.1

/-- At the end of the text, the lines of the second one come next. -/
theorem Resumes.of_nil (h : Resumes b p p') (hp : p.rest = []) :
    p'.firstLine.rest = (Place.mk 0 b).firstLine.rest := by
  rcases h with rfl | ⟨-, h⟩
  · have hline : (p.extend ('\n' :: b)).line = [] := by
      rw [Place.line_extend, Place.line, hp]
      rfl
    have hrest : (p.extend ('\n' :: b)).rest = [] ++ '\n' :: b := by rw [Place.rest_extend, hp]
    rw [Place.firstLine_of_blank Place.rest_extend_ne_nil (by rw [hline]; rfl)]
    refine Place.firstLine_congr ?_
    exact Place.rest_nextLine_of_append hrest (by simp) (by rintro c ⟨rfl⟩; rfl)
  · exact h

end Resumes

section Nested

variable {b : List Char} {p p' : Place}

/-- A run of nested lines goes on with blank lines at most, if the second text does not start
    with a nested line. -/
theorem nestedRun_resumes {base : Nat}
    (hb : (nestedRun base p).2.rest = [] → (Place.mk 0 b).firstLine.indent ≤ base)
    (h : Resumes b p p') : ∃ blanks, (∀ l ∈ blanks, isBlankText l = true) ∧
      (nestedRun base p').1.map Place.line = (nestedRun base p).1.map Place.line ++ blanks ∧
      Resumes b (nestedRun base p).2 (nestedRun base p').2 := by
  fun_induction nestedRun base p generalizing p' with
  | case1 p hp =>
    have hfirst := h.of_nil hp
    have hindent := Place.indent_of_rest hfirst
    have hle := hindent ▸ hb hp
    obtain ⟨hblank, hnext⟩ := nestedRun_firstLine hle
    refine ⟨_, List.forall_mem_map.2 hblank, rfl, .inr ⟨hp, ?_⟩⟩
    rw [hnext, Place.firstLine_firstLine, hfirst]
  | case2 p hp hmore lines next hrun ih =>
    obtain rfl := h.of_ne_nil hp
    rw [hrun] at ih
    obtain ⟨blanks, hblank, hlines, hnext⟩ := ih hb Place.nextLine_extend
    rw [nestedRun, dif_neg Place.rest_extend_ne_nil, Place.line_extend, Place.indent_extend,
      if_pos hmore]
    refine ⟨blanks, hblank, ?_, hnext⟩
    dsimp only at hlines ⊢
    rw [List.map_cons, hlines, Place.line_extend, List.map_cons, List.cons_append]
  | case3 p hp hmore =>
    obtain rfl := h.of_ne_nil hp
    rw [nestedRun, dif_neg Place.rest_extend_ne_nil, Place.line_extend, Place.indent_extend,
      if_neg hmore]
    exact ⟨[], by simp, rfl, h⟩

/-- Else it takes the first line of the second text. -/
theorem nestedRun_takesFirst {base : Nat} (hb : base < (Place.mk 0 b).firstLine.indent)
    (hend : (nestedRun base p).2.rest = []) (h : Resumes b p p') :
    (nestedRun base p').2.rest.length < (Place.mk 0 b).firstLine.rest.length := by
  fun_induction nestedRun base p generalizing p' with
  | case1 p hp =>
    have hfirst := h.of_nil hp
    rw [← hfirst]
    exact nestedRun_overruns (Place.indent_of_rest hfirst ▸ hb)
  | case2 p hp hmore lines next hrun ih =>
    obtain rfl := h.of_ne_nil hp
    rw [hrun] at ih
    rw [nestedRun, dif_neg Place.rest_extend_ne_nil, Place.line_extend, Place.indent_extend,
      if_pos hmore]
    exact ih hend Place.nextLine_extend
  | case3 p hp hmore => exact absurd hend hp

/-- The lines nested below a line stay the same. -/
theorem nestedLines_resumes {base : Nat}
    (hb : (nestedLines base p).2.rest = [] → (Place.mk 0 b).firstLine.indent ≤ base)
    (h : Resumes b p p') :
    (nestedLines base p').1.map Stretch.chars = (nestedLines base p).1.map Stretch.chars ∧
      Resumes b (nestedLines base p).2 (nestedLines base p').2 := by
  obtain ⟨blanks, hblank, hlines, hnext⟩ := nestedRun_resumes hb h
  have hlineOf : lineOf ∘ Place.rest = Place.line := rfl
  refine ⟨?_, hnext⟩
  rw [chars_nestedLines, chars_nestedLines, blockLines_eq, blockLines_eq, List.map_map,
    List.map_map, hlineOf, hlines, blockOf_append _ hblank]

end Nested

/-! ## Lines -/

section Lines

variable {b : List Char} {p q : Place} {ts : List Token} {r : Scan} {indent : Nat}

/-- The scan `r` finds the tokens `ts` again, and ends where reading goes on as it does at
    `q`. -/
def Rejoins (b : List Char) (ts : List Token) (q : Place) (r : Scan) : Prop :=
  ∃ us q', r = .ok (us, q') ∧ Rewords id ts us ∧ Resumes b q q'

/-- What is in front of a reader does not change how it goes on. -/
theorem Rejoins.after (h : Rejoins b ts q r) (head : List Token) :
    Rejoins b (head ++ ts) q (r.after head) := by
  obtain ⟨us, q', rfl, hus, hq⟩ := h
  exact ⟨head ++ us, q', Scan.after_ok _ _ _, .append (rewords_id.2 rfl) hus, hq⟩

/-- The scan `r` takes the first line of `b`. -/
def TakesFirst (b : List Char) (r : Scan) : Prop :=
  ∃ us q', r = .ok (us, q') ∧ q'.rest.length < (Place.mk 0 b).firstLine.rest.length

/-- A line indented by `indent`, which is read as `ts` up to `q`, is read by `r` if the text goes
    on. It is read as before, unless it `nests`, that is it takes nested lines up to the end of the
    text: then it takes the first line of the second text if that is nested too. -/
structure ReadsOn (indent : Nat) (nests : Prop) (ts : List Token) (q : Place)
    (r : List Char → Scan) : Prop where
  rejoins : ∀ b, (nests → (Place.mk 0 b).firstLine.indent ≤ indent) → Rejoins b ts q (r b)
  takesFirst : nests → ∀ b, indent < (Place.mk 0 b).firstLine.indent → TakesFirst b (r b)

section ReadsOn

variable {nests : Prop} {r : List Char → Scan}

theorem exists_readsOn (h : ∀ b, Rejoins b ts q (r b)) :
    ∃ nests, ReadsOn indent nests ts q r :=
  ⟨False, fun b _ => h b, False.elim⟩

theorem ReadsOn.after (h : ReadsOn indent nests ts q r) (head : List Token) :
    ReadsOn indent nests (head ++ ts) q fun b => (r b).after head where
  rejoins b hb := (h.rejoins b hb).after head
  takesFirst hnests b hb := by
    obtain ⟨us, q', hr, hlt⟩ := h.takesFirst hnests b hb
    exact ⟨head ++ us, q', by rw [hr, Scan.after_ok], hlt⟩

end ReadsOn

/-- The end of a text is an end of a line, and so is one with lines behind it. -/
theorem atLineEnd_extend : atLineEnd (p.extend ('\n' :: b)) = atLineEnd p := by
  rw [atLineEnd, atLineEnd, Place.rest_extend]
  cases p.rest <;> rfl

/-- A colon after a head is one of the text. -/
theorem colon_extend :
    (p.extend ('\n' :: b)).rest.head? = some ':' ↔ p.rest.head? = some ':' := by
  by_cases hp : p.rest = []
  · simp [Place.rest_extend, hp]
  · rw [Place.head?_extend hp]

theorem innerTag_extend (h : p.rest.head? = some ':') :
    ((p.extend ('\n' :: b)).drop 1).skip isIndent =
      ((p.drop 1).skip isIndent).extend ('\n' :: b) := by
  obtain ⟨cs, hcs⟩ := List.head?_eq_some_iff.1 h
  rw [Place.drop_extend_one hcs]
  exact Place.skip_extend (takeWhile_extend (by decide) _)

theorem restIsBlank_extend {c : Char} {cs : List Char} (hp : p.rest = c :: cs) :
    restIsBlank ((p.extend ('\n' :: b)).drop 1) = restIsBlank (p.drop 1) := by
  rw [restIsBlank, restIsBlank, Place.drop_extend_one hp, Place.line_extend]

/-- A line whose tokens are those of its own text. -/
theorem rejoins_nextLine {us : List Token} (h : us.map Token.lexeme = ts.map Token.lexeme) :
    Rejoins b ts p.nextLine (.ok (us, (p.extend ('\n' :: b)).nextLine)) :=
  ⟨us, _, rfl, rewords_id.2 h, Place.nextLine_extend⟩

/-- A block of text is read on if the text goes on. -/
theorem textBlock_resumes (indent : Nat) (p : Place) : ∃ nests, ReadsOn indent nests
    (textBlock indent p).1 (textBlock indent p).2
    fun b => .ok (textBlock indent (p.extend ('\n' :: b))) := by
  refine ⟨(textBlock indent p).2.rest = [], fun b hb => ?_, fun hend b hb => ?_⟩
  · obtain ⟨hlines, hnext⟩ := nestedLines_resumes hb (Place.nextLine_extend (p := p))
    rw [← List.map_id ((nestedLines indent p.nextLine).1.map Stretch.chars)] at hlines
    exact ⟨_, _, rfl, textBlock_reword_of_chars tokenRewording_id.toRewording hlines, hnext⟩
  · exact ⟨_, _, rfl, nestedRun_takesFirst hb hend Place.nextLine_extend⟩

/-- So is a comment. -/
theorem commentLines_resumes (indent : Nat) {cs : List Char} (hp : p.rest = '/' :: '/' :: cs) :
    ∃ nests, ReadsOn indent nests (commentLines indent p).1 (commentLines indent p).2
      fun b => .ok (commentLines indent (p.extend ('\n' :: b))) := by
  refine ⟨(commentLines indent p).2.rest = [], fun b hb => ?_, fun hend b hb => ?_⟩
  · obtain ⟨hlines, hnext⟩ := nestedLines_resumes hb (Place.nextLine_extend (p := p))
    rw [← List.map_id ((nestedLines indent p.nextLine).1.map Stretch.chars)] at hlines
    have hbuffered : (((p.extend ('\n' :: b)).rest.drop 2).head? != some '-') =
        ((p.rest.drop 2).head? != some '-') := by
      rw [Place.rest_extend, hp]
      cases cs <;> rfl
    refine ⟨_, _, rfl, ?_, hnext⟩
    exact commentLines_reword_of_chars tokenRewording_id.toRewording hbuffered
      (fun n _ => by rw [Place.line_extend]; rfl) hlines
  · exact ⟨_, _, rfl, nestedRun_takesFirst hb hend Place.nextLine_extend⟩

/-- A body is read on if the text goes on. -/
theorem tagBody_resumes (h : tagBody indent p = .ok (ts, q)) :
    ∃ nests, ReadsOn indent nests ts q fun b => tagBody indent (p.extend ('\n' :: b)) := by
  rw [tagBody] at h
  split at h
  · rename_i hend
    obtain ⟨rfl, rfl⟩ := Prod.mk.inj (Except.ok.inj h)
    refine exists_readsOn fun b => ?_
    rw [tagBody, if_pos (atLineEnd_extend.trans hend)]
    exact rejoins_nextLine rfl
  · rename_i hend
    have hend' (b : List Char) : atLineEnd (p.extend ('\n' :: b)) ≠ true := by
      rwa [atLineEnd_extend]
    split at h
    · rename_i cs hcs
      split at h
      · rename_i hblank
        have hbody (b : List Char) : tagBody indent (p.extend ('\n' :: b)) =
            .ok (textBlock indent (p.extend ('\n' :: b))) := by
          rw [tagBody, if_neg (hend' b), Place.rest_extend_cons hcs]
          dsimp only
          rw [if_pos ((restIsBlank_extend hcs).trans hblank)]
          rfl
        have hblock := textBlock_resumes indent p
        rw [Except.ok.inj h] at hblock
        simpa only [hbody] using hblock
      · simp at h
    · rename_i cs hcs
      refine exists_readsOn fun b => ?_
      rw [tagBody, if_neg (hend' b), Place.rest_extend_cons hcs]
      dsimp only at h ⊢
      rw [Place.drop_extend_one hcs, Place.line_extend]
      split at h
      · rename_i hblank
        obtain ⟨rfl, rfl⟩ := Prod.mk.inj (Except.ok.inj h)
        rw [if_pos hblank]
        exact rejoins_nextLine rfl
      · rename_i hblank
        obtain ⟨rfl, rfl⟩ := Prod.mk.inj (Except.ok.inj h)
        rw [if_neg hblank]
        exact rejoins_nextLine rfl
    · rename_i cs hcs
      split at h
      · rename_i hblank
        obtain ⟨rfl, rfl⟩ := Prod.mk.inj (Except.ok.inj h)
        refine exists_readsOn fun b => ?_
        rw [tagBody, if_neg (hend' b)]
        simp only [Place.rest_extend_cons hcs, (restIsBlank_extend hcs).trans hblank, if_true]
        exact rejoins_nextLine rfl
      · simp at h
    all_goals simp at h

/-- So is a line with a tag. -/
theorem tagLine_resumes (h : tagLine indent p = .ok (ts, q)) :
    ∃ nests, ReadsOn indent nests ts q fun b => tagLine indent (p.extend ('\n' :: b)) := by
  fun_induction tagLine indent p generalizing ts with
  | case1 => simp at h
  | case2 => simp at h
  | case3 p head r hp =>
    rename_i hcolon s hend ih
    obtain ⟨us, hus, rfl⟩ := Scan.after_eq_ok_iff.1 h
    obtain ⟨cs, hcs⟩ := List.head?_eq_some_iff.1 hcolon
    have hline (b : List Char) : tagLine indent (p.extend ('\n' :: b)) =
        (tagLine indent (s.extend ('\n' :: b))).after
          (head ++ [.read .colon r (r.drop 1)]) := by
      have hhead := tagHead_extend (stopsHead_newline b) hp
      have hs : ((r.extend ('\n' :: b)).drop 1).skip isIndent = s.extend ('\n' :: b) :=
        innerTag_extend hcolon
      rw [tagLine_colon hhead (colon_extend.2 hcolon)
        (by rw [hs, atLineEnd_extend]; simpa using hend), hs, Place.drop_extend_one hcs]
      rfl
    obtain ⟨nests, hreads⟩ := ih hus
    simpa only [hline] using ⟨nests, hreads.after _⟩
  | case4 p head r hp =>
    rename_i hcolon
    obtain ⟨us, hus, rfl⟩ := Scan.after_eq_ok_iff.1 h
    have hline (b : List Char) : tagLine indent (p.extend ('\n' :: b)) =
        (tagBody indent (r.extend ('\n' :: b))).after head :=
      tagLine_body (tagHead_extend (stopsHead_newline b) hp) (hcolon ∘ colon_extend.1)
    obtain ⟨nests, hreads⟩ := tagBody_resumes hus
    simpa only [hline] using ⟨nests, hreads.after _⟩

/-- The content of a line is the same, and goes on into the second text at most with blank
    lines, unless that starts with a nested line. -/
theorem lineContent_resumes (h : lineContent indent p = .ok (ts, q)) :
    ∃ nests, ReadsOn indent nests ts q fun b => lineContent indent (p.extend ('\n' :: b)) := by
  rw [lineContent] at h
  split at h
  · rename_i cs hcs
    have hline (b : List Char) : lineContent indent (p.extend ('\n' :: b)) =
        .ok (commentLines indent (p.extend ('\n' :: b))) := by
      rw [lineContent, Place.rest_extend_cons hcs]
      rfl
    have hcomment := commentLines_resumes indent hcs
    rw [Except.ok.inj h] at hcomment
    simpa only [hline] using hcomment
  · simp at h
  · rename_i cs hcs
    obtain ⟨rfl, rfl⟩ := Prod.mk.inj (Except.ok.inj h)
    refine exists_readsOn fun b => ?_
    simp only [lineContent, Place.rest_extend_cons hcs, pipedLine, Place.drop_extend_one hcs,
      Place.line_extend]
    exact rejoins_nextLine rfl
  · rename_i cs hcs
    obtain ⟨rfl, rfl⟩ := Prod.mk.inj (Except.ok.inj h)
    refine exists_readsOn fun b => ?_
    simp only [lineContent, Place.rest_extend_cons hcs, literalLine, Place.line_extend]
    exact rejoins_nextLine rfl
  · simp at h
  · simp at h
  · simp at h
  · obtain ⟨c, cs, hcs, hc⟩ := tagLine_start h
    have hline (b : List Char) : lineContent indent (p.extend ('\n' :: b)) =
        tagLine indent (p.extend ('\n' :: b)) := hc.lineContent (Place.rest_extend_cons hcs) indent
    simpa only [hline] using tagLine_resumes h

end Lines

/-! ## Opening lines -/

/-- What the tree of a text depends on of an opening line. -/
def OpeningLine.traits (l : OpeningLine) : Bool × Bool × (Nat × List Lexeme) :=
  (mixesIndent l.start, l.isText, l.shape)

section Opening

variable {b : List Char} {p p' next next' : Place} {ts us : List Token} {ls : List OpeningLine}

theorem startsText_extend : startsText (p.extend ('\n' :: b)) = startsText p := by
  rw [startsText, startsText, Place.rest_extend]
  cases p.rest <;> rfl

/-- Lines behind a text change no trait of its lines. -/
theorem traits_extend (h : Rewords id ts us) : (OpeningLine.mk p ts next).traits =
    (OpeningLine.mk (p.extend ('\n' :: b)) us next').traits := by
  simp only [OpeningLine.traits, OpeningLine.isText, OpeningLine.shape, OpeningLine.indent,
    Place.mixesIndent_extend, Place.indent_extend, Place.drop_indent_extend, startsText_extend,
    rewords_id.1 h]

theorem traits_of_rest (hp : p'.rest = p.rest) (h : Rewords id ts us) :
    (OpeningLine.mk p ts next).traits = (OpeningLine.mk p' us next').traits := by
  simp only [OpeningLine.traits, OpeningLine.isText, OpeningLine.shape, OpeningLine.indent,
    Place.indent_of_rest hp, mixesIndent, startsText, Place.rest_drop, hp, rewords_id.1 h]

/-- The opening lines are known from the text, wherever it starts. -/
theorem openingLinesFrom_of_rest (hp : p'.rest = p.rest) (h : openingLinesFrom p = .ok ls) :
    ∃ ls', openingLinesFrom p' = .ok ls' ∧
      ls'.map OpeningLine.traits = ls.map OpeningLine.traits := by
  fun_induction openingLinesFrom p generalizing p' ls with
  | case1 p hnil =>
    obtain rfl := Except.ok.inj h
    exact ⟨[], by rw [openingLinesFrom, dif_pos (hp.trans hnil)], rfl⟩
  | case2 p hne hblank ih =>
    rw [openingLinesFrom, dif_neg (hp ▸ hne), if_pos (Place.line_of_rest hp ▸ hblank)]
    exact ih (Place.nextLine_of_rest hp) h
  | case3 => simp at h
  | case4 p hne hblank content next hc ih =>
    obtain ⟨more, hmore, rfl⟩ := map_eq_ok_iff.1 h
    have hindent := Place.indent_of_rest hp
    have hstart : (p'.drop p'.indent).rest = id (p.drop p.indent).rest := by
      rw [Place.rest_drop, Place.rest_drop, hindent, hp]
      rfl
    have hnames : TagNames (fun name => reword id name = name) content :=
      fun _ _ name _ => reword_id name
    obtain ⟨us, next', hc', hus, hnext⟩ :=
      lineContent_reword tokenRewording_id.toRewording hstart hc hnames
    obtain ⟨more', hmore', htraits⟩ := ih hnext hmore
    rw [← hindent] at hc'
    have hblank' : isBlankText p'.line = false := by
      rw [Place.line_of_rest hp]
      simpa using hblank
    rw [openingLinesFrom_cons (hp ▸ hne) hblank' hc', hmore']
    refine ⟨_, rfl, ?_⟩
    rw [List.map_cons, List.map_cons, htraits, traits_of_rest hp hus]

/-- The lines of the second text come after those of the first. -/
theorem openingLinesFrom_resumes (hb : (Place.mk 0 b).firstLine.indent = 0)
    {la lb : List OpeningLine} (hlb : openingLinesFrom ⟨0, b⟩ = .ok lb)
    (hla : openingLinesFrom p = .ok la) (hp : Resumes b p p') :
    ∃ ls, openingLinesFrom p' = .ok ls ∧
      ls.map OpeningLine.traits = (la ++ lb).map OpeningLine.traits := by
  fun_induction openingLinesFrom p generalizing p' la with
  | case1 p hnil =>
    obtain rfl := Except.ok.inj hla
    rw [← openingLinesFrom_firstLine]
    refine openingLinesFrom_of_rest (hp.of_nil hnil) ?_
    rwa [openingLinesFrom_firstLine]
  | case2 p hne hblank ih =>
    obtain rfl := hp.of_ne_nil hne
    rw [openingLinesFrom, dif_neg Place.rest_extend_ne_nil, Place.line_extend, if_pos hblank]
    exact ih hla Place.nextLine_extend
  | case3 => simp at hla
  | case4 p hne hblank content next hc ih =>
    obtain rfl := hp.of_ne_nil hne
    obtain ⟨more, hmore, rfl⟩ := map_eq_ok_iff.1 hla
    obtain ⟨_, hreads⟩ := lineContent_resumes hc
    obtain ⟨us, next', hc', hus, hnext⟩ := hreads.rejoins b fun _ => by omega
    rw [← Place.drop_indent_extend, ← Place.indent_extend (b := b)] at hc'
    obtain ⟨ls, hls, htraits⟩ := ih hmore hnext
    rw [openingLinesFrom_cons Place.rest_extend_ne_nil (by simpa using hblank) hc', hls]
    refine ⟨_, rfl, ?_⟩
    rw [List.map_cons, htraits, List.cons_append, List.map_cons, traits_extend hus]

/-- The first line is the first opening line. -/
theorem indent_firstLine (h : openingLinesFrom p = .ok ls) :
    p.firstLine.indent = (ls.head?.map OpeningLine.indent).getD 0 := by
  fun_induction openingLinesFrom p generalizing ls with
  | case1 p hnil =>
    obtain rfl := Except.ok.inj h
    rw [Place.firstLine_of_nil hnil, Place.indent, hnil]
    rfl
  | case2 p hne hblank ih =>
    rw [Place.firstLine_of_blank hne hblank]
    exact ih h
  | case3 => simp at h
  | case4 p hne hblank content next hc ih =>
    obtain ⟨more, -, rfl⟩ := map_eq_ok_iff.1 h
    rw [Place.firstLine_of_not_blank (by simpa using hblank)]
    rfl

/-- The opening lines of two texts with a line feed between them. -/
theorem openingLines_append {a b : String} {la lb : List OpeningLine}
    (ha : openingLines a = .ok la) (hb : openingLines b = .ok lb)
    (hfirst : ∀ l ∈ lb.head?, l.indent = 0) :
    ∃ ls, openingLines (a ++ "\n" ++ b) = .ok ls ∧
      ls.map OpeningLine.traits = (la ++ lb).map OpeningLine.traits := by
  have hindent : (Place.ofText b).firstLine.indent = 0 := by
    rw [indent_firstLine hb]
    cases hl : lb.head? with
    | none => rfl
    | some l => exact hfirst l hl
  have htext : Place.ofText (a ++ "\n" ++ b) = (Place.ofText a).extend ('\n' :: b.toList) := by
    simp [Place.ofText, Place.extend]
  rw [openingLines, htext]
  exact openingLinesFrom_resumes hindent hb ha (resumes_extend _ _)

end Opening

end SlotMarkup
