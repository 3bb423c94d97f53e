import SlotMarkup.Proofs.CrlfReaders

/-!
# Scanning texts with carriage returns

A line ends before its line break, whether that has a carriage return or not, so the lines
of a text are the same with carriage returns before the line feeds (`Twin.line`). What is
decided by lines, as what is nested in a comment and how wide that is indented, stays the
same, and all texts and comments do (`blockLines_crlf`). So both texts are cut into the same
tokens, up to the attributes, or are refused for the same cause (`scan_crlf`).
-/

namespace SlotMarkup

/-! ## Lines -/

/-- The run up to a line feed has the carriage return before it. -/
theorem takeWhile_newline_crlf (cs : List Char) : (crlf cs).takeWhile (· != '\n') =
    cs.takeWhile (· != '\n') ++ if '\n' ∈ cs then ['\r'] else [] := by
  induction cs with
  | nil => rfl
  | cons c cs ih =>
    by_cases hc : c = '\n'
    · subst hc
      rw [crlf_newline, if_pos List.mem_cons_self]
      rfl
    · have hmem : '\n' ∈ c :: cs ↔ '\n' ∈ cs := by simp [Ne.symm hc]
      rw [crlf_cons hc, List.takeWhile_cons_of_pos (by simpa using hc),
        List.takeWhile_cons_of_pos (by simpa using hc), ih, List.cons_append]
      simp only [hmem]

/-- After it the text goes on behind the line feed. -/
theorem dropWhile_newline_crlf (cs : List Char) : ((crlf cs).dropWhile (· != '\n')).drop 1 =
    crlf ((cs.dropWhile (· != '\n')).drop 1) := by
  induction cs with
  | nil => rfl
  | cons c cs ih =>
    by_cases hc : c = '\n'
    · subst hc
      rfl
    · rw [crlf_cons hc, List.dropWhile_cons_of_pos (by simpa using hc),
        List.dropWhile_cons_of_pos (by simpa using hc), ih]

section Lines

variable {p p' : Place}

namespace Twin

/-- A line is the same in both texts, as its break is no part of it. -/
theorem line (h : Twin p p') : p'.line = p.line := by
  have hlast : (p.rest.takeWhile (· != '\n')).getLast? ≠ some '\r' := fun hr =>
    h.clean ((List.takeWhile_prefix _).subset (List.mem_of_getLast? hr))
  rw [Place.line, Place.line, h.rest, takeWhile_newline_crlf, if_neg hlast]
  by_cases hn : '\n' ∈ p.rest
  · rw [if_pos hn, List.getLast?_concat, if_pos rfl, List.dropLast_concat]
  · rw [if_neg hn, List.append_nil, if_neg hlast]

/-- Twins go on to twins. -/
theorem nextLine (h : Twin p p') : Twin p.nextLine p'.nextLine where
  rest := by
    rw [Place.rest_nextLine, Place.rest_nextLine, h.rest, dropWhile_newline_crlf]
  clean hr := h.clean (p.reaches_nextLine.suffix.subset hr)

/-- A line is indented alike in both texts. -/
theorem indent (h : Twin p p') : p'.indent = p.indent := by
  rw [Place.indent, Place.indent, indentWidth, indentWidth, h.rest, takeWhile_crlf rfl rfl]

/-- Behind the indentation of a line they are twins again. -/
theorem drop_indent (h : Twin p p') : Twin (p.drop p.indent) (p'.drop p'.indent) := by
  rw [h.indent]
  exact h.drop_plain fun hn => absurd (isIndent_of_mem_take (Nat.le_refl _) _ hn) (by decide)

/-- A line ends at the same place. -/
theorem atLineEnd (h : Twin p p') : atLineEnd p' = atLineEnd p := by
  have hend (q : Place) : SlotMarkup.atLineEnd q =
      (q.rest.head?.map fun c => c == '\n' || c == '\r').getD true := by
    rw [SlotMarkup.atLineEnd]
    cases q.rest <;> rfl
  rw [hend, hend, h.rest, head?_map_crlf rfl]

theorem mixesIndent (h : Twin p p') : mixesIndent p' = mixesIndent p := by
  rw [SlotMarkup.mixesIndent, SlotMarkup.mixesIndent, h.rest, takeWhile_crlf rfl rfl]

end Twin

/-! ## Nested lines -/

/-- As many lines are nested in both texts, and behind them the texts are twins. -/
theorem nestedRun_crlf (base : Nat) (h : Twin p p') :
    (nestedRun base p').1.map Place.rest = ((nestedRun base p).1.map Place.rest).map crlf ∧
      (∀ q ∈ (nestedRun base p).1, '\r' ∉ q.rest) ∧
      Twin (nestedRun base p).2 (nestedRun base p').2 := by
  fun_induction nestedRun base p generalizing p' with
  | case1 p hnil =>
    rw [nestedRun, dif_pos (h.rest_nil hnil)]
    exact ⟨rfl, by simp, h⟩
  | case2 p hne hmore lines next hrun ih =>
    rw [← h.line, ← h.indent] at hmore
    obtain ⟨hlines, hclean, hnext⟩ := ih h.nextLine
    rw [hrun] at hlines hclean hnext
    rw [nestedRun, dif_neg (mt h.rest_eq_nil_iff.1 hne), if_pos hmore]
    refine ⟨?_, List.forall_mem_cons.2 ⟨h.clean, hclean⟩, hnext⟩
    rw [List.map_cons, hlines, h.rest]
    rfl
  | case3 p hne hmore =>
    rw [← h.line, ← h.indent] at hmore
    rw [nestedRun, dif_neg (mt h.rest_eq_nil_iff.1 hne), if_neg hmore]
    exact ⟨rfl, by simp, h⟩

/-- The first line of a text is the same with other line breaks. -/
theorem lineOf_crlf {cs : List Char} (h : '\r' ∉ cs) : lineOf (crlf cs) = lineOf cs :=
  (show Twin ⟨0, cs⟩ ⟨0, crlf cs⟩ from ⟨rfl, h⟩).line

/-- Nested lines are the same with carriage returns, and share the same indentation. -/
theorem blockLines_crlf {starts : List (List Char)} (h : ∀ cs ∈ starts, '\r' ∉ cs) :
    blockLines (starts.map crlf) = blockLines starts := by
  have hkept := map_dropTrailing (e := crlf) (f := fun cs => isBlankText (lineOf cs))
    (g := fun cs => isBlankText (lineOf cs)) (l := starts)
    fun cs hcs => congrArg isBlankText (lineOf_crlf (h cs hcs))
  have hclean : ∀ cs ∈ dropTrailing (fun cs => isBlankText (lineOf cs)) starts, '\r' ∉ cs := by
    intro cs hcs
    refine h cs ?_
    rw [← dropTrailing_append_takeWhile (fun cs => isBlankText (lineOf cs)) starts]
    exact List.mem_append_left _ hcs
  rw [blockLines, blockLines, ← hkept]
  generalize dropTrailing (fun cs => isBlankText (lineOf cs)) starts = kept at hclean
  have hline (cs : List Char) (hcs : cs ∈ kept) : lineOf (crlf cs) = lineOf cs :=
    lineOf_crlf (hclean cs hcs)
  have hwidth : blockWidth (kept.map crlf) = blockWidth kept := by
    have hblank : ∀ cs ∈ kept, (!isBlankText (lineOf (crlf cs))) = !isBlankText (lineOf cs) :=
      fun cs hcs => by rw [hline cs hcs]
    rw [blockWidth, blockWidth, filter_map_of_mem (f := crlf) hblank, List.map_map]
    have hindent : indentWidth ∘ crlf = indentWidth := funext fun cs => by
      rw [Function.comp_apply, indentWidth, indentWidth, takeWhile_crlf rfl rfl]
    rw [hindent]
  rw [hwidth, List.map_map]
  refine List.map_congr_left fun cs hcs => ?_
  rw [Function.comp_apply, strippedLine, strippedLine, hline cs hcs]

/-- The same is collected of nested lines. -/
theorem nestedLines_crlf (base : Nat) (h : Twin p p') :
    (nestedLines base p').1.map Stretch.chars = (nestedLines base p).1.map Stretch.chars ∧
      Twin (nestedLines base p).2 (nestedLines base p').2 := by
  obtain ⟨hrun, hclean, hnext⟩ := nestedRun_crlf base h
  refine ⟨?_, hnext⟩
  rw [chars_nestedLines, chars_nestedLines, hrun, blockLines_crlf]
  intro cs hcs
  obtain ⟨q, hq, rfl⟩ := List.mem_map.1 hcs
  exact hclean q hq

/-! ## Bodies -/

theorem textLineTokens_crlf {l l' : Stretch} (h : l'.chars = l.chars) :
    Relabels crlf (textLineTokens l) (textLineTokens l') := by
  rw [textLineTokens, textLineTokens, h]
  split
  · exact relabels_nil
  · exact relabels_single rfl

/-- The lines of a text block have the same tokens up to their spans. -/
theorem textLinesTokens_crlf {ls ls' : List Stretch}
    (h : ls'.map Stretch.chars = ls.map Stretch.chars) :
    Relabels crlf (textLinesTokens ls) (textLinesTokens ls') := by
  induction ls generalizing ls' with
  | nil =>
    obtain rfl := List.map_eq_nil_iff.1 h
    exact relabels_nil
  | cons l ls ih =>
    obtain ⟨l', ls', rfl, hl, hls⟩ := List.map_eq_cons_iff.1 h
    exact .cons rfl ((textLineTokens_crlf hl).append (ih hls))

/-- A text block is scanned alike. -/
theorem textBlock_crlf (indent : Nat) (h : Twin p p') :
    ScanTwin (textBlock indent p) (textBlock indent p') := by
  obtain ⟨hlines, hnext⟩ := nestedLines_crlf indent h.nextLine
  rw [textBlock, textBlock]
  cases hn : nestedLines indent p.nextLine with
  | mk ls next =>
    cases hn' : nestedLines indent p'.nextLine with
    | mk ls' next' =>
      rw [hn, hn'] at hlines hnext
      refine ⟨.cons rfl (.append ?_ (relabels_single rfl)), hnext⟩
      cases ls with
      | nil =>
        obtain rfl := List.map_eq_nil_iff.1 hlines
        exact relabels_nil
      | cons l ls =>
        obtain ⟨l', ls', rfl, hl, hls⟩ := List.map_eq_cons_iff.1 hlines
        exact (textLineTokens_crlf hl).append (textLinesTokens_crlf hls)

/-- The errors name a character that is no line break. -/
theorem unexpected_crlf {R : List Token × Place → List Token × Place → Prop} (h : Twin p p')
    (hp : p.rest.head? ≠ some '\n') :
    Alike R (.error (.unexpected p)) (.error (.unexpected p')) := by
  refine .error ?_
  rw [ScanError.unexpected, ScanError.unexpected, ScanError.between, ScanError.between]
  cases hcs : p.rest with
  | nil => rw [h.rest_nil hcs]
  | cons c cs =>
    have hc : c ≠ '\n' := by
      rintro rfl
      exact hp (by rw [hcs]; rfl)
    rw [h.rest_cons hcs hc]
    rfl

/-- What follows a head is scanned alike, or the same is wrong with it. -/
theorem tagBody_crlf (indent : Nat) (h : Twin p p') :
    Alike ScanTwin (tagBody indent p) (tagBody indent p') := by
  rw [tagBody, tagBody, h.atLineEnd]
  refine .ite (fun _ => .ok ⟨relabels_nil, h.nextLine⟩) fun hend => ?_
  have hhead : p.rest.head? ≠ some '\n' := fun hn => by
    obtain ⟨cs, hcs⟩ := List.head?_eq_some_iff.1 hn
    exact hend (by simp [atLineEnd, hcs])
  split
  · -- A dot starts a text block, on the lines below.
    rename_i cs hcs
    simp only [h.rest_cons hcs (by decide), restIsBlank, (h.drop_one hcs (by decide)).line]
    exact .ite (fun _ => .ok (textBlock_crlf indent h)) fun _ => unexpected_crlf h hhead
  · -- After a space comes the text of the tag, unless it is blank.
    rename_i cs hcs
    have hone := h.drop_one hcs (by decide)
    simp only [h.rest_cons hcs (by decide), hone.line]
    exact .ite (fun _ => .ok ⟨relabels_nil, h.nextLine⟩) fun _ =>
      .ok ⟨relabels_single rfl, h.nextLine⟩
  · -- A slash closes the tag.
    rename_i cs hcs
    have hone := h.drop_one hcs (by decide)
    simp only [h.rest_cons hcs (by decide), restIsBlank, hone.line]
    refine .ite (fun _ => .ok ⟨relabels_nil, h.nextLine⟩) fun hblank => ?_
    refine unexpected_crlf hone fun hn => hblank ?_
    obtain ⟨ds, hds⟩ := List.head?_eq_some_iff.1 hn
    rw [Place.line, hds]
    rfl
  · rename_i cs hcs
    simp only [h.rest_cons hcs (by decide)]
    exact .error rfl
  · rename_i cs hcs
    simp only [h.rest_cons hcs (by decide), crlf_cons (show '=' ≠ '\n' by decide)]
    exact .error rfl
  · rename_i cs hcs
    simp only [h.rest_cons hcs (by decide)]
    exact .error rfl
  · rename_i hdot hspace hslash hequals hbang hamp
    split
    · exact absurd ‹_› (h.ne_cons (by decide) hdot _)
    · exact absurd ‹_› (h.ne_cons (by decide) hspace _)
    · exact absurd ‹_› (h.ne_cons (by decide) hslash _)
    · exact absurd ‹_› (h.ne_cons (by decide) hequals _)
    · exact absurd ‹_› (h.ne_cons_cons (by decide) (by decide) hbang _)
    · exact absurd ‹_› (h.ne_cons (by decide) hamp _)
    · exact unexpected_crlf h hhead

/-! ## Tags -/

/-- A line of tags is scanned alike, or the same is wrong with it. -/
theorem tagLine_crlf (indent : Nat) (h : Twin p p') :
    Alike ScanTwin (tagLine indent p) (tagLine indent p') := by
  induction hlen : p.rest.length using Nat.strongRecOn generalizing p p' with
  | ind n ih =>
    subst hlen
    rw [tagLine_eq_bind, tagLine_eq_bind]
    refine (tagHead_crlf h).bind fun r r' hr htwin => ?_
    have hcolon := htwin.2.head?_iff (c := ':') (by decide) (by decide)
    simp only [hcolon]
    refine .ite (fun hc => ?_) fun _ => (tagBody_crlf indent htwin.2).after htwin.1
    obtain ⟨cs, hcs⟩ := List.head?_eq_some_iff.1 hc
    have hskip := (htwin.2.drop_one hcs (by decide)).skip (f := isIndent) rfl
    rw [hskip.atLineEnd]
    refine .ite (fun _ => .error rfl) fun _ =>
      (ih _ ?_ hskip rfl).after (htwin.1.append (relabels_single rfl))
    exact Nat.lt_of_le_of_lt r.2.reaches_innerTag.length_le (tagHead_reaches hr).2

/-! ## Contents of lines -/

/-- A piped line is scanned alike. -/
theorem pipedLine_crlf {cs : List Char} (h : Twin p p') (hcs : p.rest = '|' :: cs) :
    ScanTwin (pipedLine p) (pipedLine p') := by
  rw [pipedLine, pipedLine, (h.drop_one hcs (by decide)).line]
  exact ⟨relabels_single rfl, h.nextLine⟩

/-- A line of literal markup is scanned alike. -/
theorem literalLine_crlf (h : Twin p p') : ScanTwin (literalLine p) (literalLine p') := by
  rw [literalLine, literalLine, h.line]
  exact ⟨relabels_single rfl, h.nextLine⟩

/-- A comment is scanned alike, as the lines nested below it are joined by line feeds. -/
theorem commentLines_crlf {cs : List Char} (indent : Nat) (h : Twin p p')
    (hcs : p.rest = '/' :: '/' :: cs) :
    ScanTwin (commentLines indent p) (commentLines indent p') := by
  have hrest : (p'.rest.drop 2).head? = some '-' ↔ (p.rest.drop 2).head? = some '-' := by
    have htwo := h.drop_plain (n := 2) (by simp [hcs])
    exact htwo.head?_iff (by decide) (by decide)
  have hbuffered : ((p'.rest.drop 2).head? != some '-') = ((p.rest.drop 2).head? != some '-') := by
    rw [Bool.eq_iff_iff, bne_iff_ne, bne_iff_ne, ne_eq, ne_eq, hrest]
  have hjoined (ls : List Stretch) : ls.flatMap (fun l => '\n' :: l.chars) =
      (ls.map Stretch.chars).flatMap ('\n' :: ·) := by rw [List.flatMap_map]
  obtain ⟨hlines, hnext⟩ := nestedLines_crlf indent h.nextLine
  rw [commentLines, commentLines, hbuffered, h.line]
  dsimp only
  rw [hjoined, hjoined, hlines]
  exact ⟨relabels_single rfl, hnext⟩

/-- Whatever a line is, it is scanned alike, or the same is wrong with it. -/
theorem lineContent_crlf (indent : Nat) (h : Twin p p') :
    Alike ScanTwin (lineContent indent p) (lineContent indent p') := by
  rw [lineContent]
  split
  · rename_i cs hcs
    have hcs' : p'.rest = '/' :: '/' :: crlf cs := by
      rw [h.rest_cons hcs (by decide), crlf_cons (by decide)]
    simp only [lineContent, hcs']
    exact .ok (commentLines_crlf indent h hcs)
  · rename_i cs hcs
    have hcs' : p'.rest = '!' :: '=' :: crlf cs := by
      rw [h.rest_cons hcs (by decide), crlf_cons (by decide)]
    simp only [lineContent, hcs']
    exact .error rfl
  · rename_i cs hcs
    simp only [lineContent, h.rest_cons hcs (by decide)]
    exact .ok (pipedLine_crlf h hcs)
  · rename_i cs hcs
    simp only [lineContent, h.rest_cons hcs (by decide)]
    exact .ok (literalLine_crlf h)
  · rename_i cs hcs
    simp only [lineContent, h.rest_cons hcs (by decide)]
    exact .error rfl
  · rename_i cs hcs
    simp only [lineContent, h.rest_cons hcs (by decide)]
    exact .error rfl
  · rename_i cs hcs
    simp only [lineContent, h.rest_cons hcs (by decide)]
    exact .error rfl
  · rename_i hslash hbang hbar hangle hhyphen hequals hplus
    -- None of the other lines is started by a line break.
    have hline : lineContent indent p' = tagLine indent p' := by
      rw [lineContent]
      split
      · exact absurd ‹_› (h.ne_cons_cons (by decide) (by decide) hslash _)
      · exact absurd ‹_› (h.ne_cons_cons (by decide) (by decide) hbang _)
      · exact absurd ‹_› (h.ne_cons (by decide) hbar _)
      · exact absurd ‹_› (h.ne_cons (by decide) hangle _)
      · exact absurd ‹_› (h.ne_cons (by decide) hhyphen _)
      · exact absurd ‹_› (h.ne_cons (by decide) hequals _)
      · exact absurd ‹_› (h.ne_cons (by decide) hplus _)
      · rfl
    rw [hline]
    exact tagLine_crlf indent h

/-! ## Texts -/

theorem relabels_closing (levels : List Nat) (p p' : Place) :
    Relabels crlf (closing levels p) (closing levels p') := by
  rw [Relabels, closing, closing, List.map_append, List.map_map, List.map_append, List.map_map]
  rfl

/-- What opens or closes levels before a line has no text. -/
theorem relabels_opening {levels inner : List Nat} {first : Bool} {indent : Nat} {ls : List Lexeme}
    (h : openLine levels first indent = some (ls, inner)) (s s' : Span) :
    Relabels crlf (ls.map (⟨·, s⟩)) (ls.map (⟨·, s'⟩)) := by
  rw [Relabels, List.map_map, List.map_map]
  refine List.map_congr_left fun l hl => ?_
  rcases mem_opening h hl with rfl | rfl | rfl <;> rfl

/-- A text is scanned alike line by line, up to the first line with which something is wrong. -/
theorem scanLines_crlf (levels : List Nat) (first : Bool) (h : Twin p p') :
    Alike (Relabels crlf) (scanLines levels first p) (scanLines levels first p') := by
  induction hlen : p.rest.length using Nat.strongRecOn generalizing levels first p p' with
  | ind n ih =>
    subst hlen
    by_cases hnil : p.rest = []
    · rw [scanLines_end hnil, scanLines_end (h.rest_nil hnil)]
      exact .ok (relabels_closing levels p p')
    · have hnil' := mt h.rest_eq_nil_iff.1 hnil
      by_cases hb : isBlankText p.line = true
      · rw [scanLines_blank hnil hb, scanLines_blank hnil' (h.line ▸ hb)]
        exact ih _ (Place.nextLine_lt hnil) levels first h.nextLine rfl
      · rw [scanLines_content hnil hb, scanLines_content hnil' (h.line ▸ hb), h.mixesIndent]
        refine .ite (fun _ => .error rfl) fun _ => ?_
        have hstart := h.drop_indent
        rw [h.indent] at hstart ⊢
        cases hopen : openLine levels first p.indent with
        | none => exact .error rfl
        | some o =>
          refine (lineContent_crlf p.indent hstart).bind fun r r' hr htwin => ?_
          have hlt := Nat.lt_of_lt_of_le (lineContent_reaches hr).2 (p.length_drop_le p.indent)
          exact (ih _ hlt o.2 false htwin.2 rfl).map fun more more' _ hmore =>
            (relabels_opening hopen _ _).append (htwin.1.append hmore)

/-- A text with carriage returns is cut into the same tokens, with carriage returns in the
    attributes, or refused for the same cause. -/
theorem scan_crlf {text text' : String} (htext : text'.toList = crlf text.toList)
    (hclean : '\r' ∉ text.toList) : Alike (Relabels crlf) (Token.scan text) (Token.scan text') :=
  scanLines_crlf [] true ⟨htext, hclean⟩

end Lines

end SlotMarkup
