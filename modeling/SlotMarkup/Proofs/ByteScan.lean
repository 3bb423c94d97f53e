import SlotMarkup.Proofs.ByteTags

/-!
# Scanning by byte offsets

Whatever the text, reading it by byte offsets comes to an outcome, and to the same one as
reading it by characters: the readers of both kinds go from place to place together.

* `HasPlace.lineContent_eq`: the content of a line;
* `Source.scan_eq`: whole texts.
-/

namespace SlotMarkup

namespace HasPlace

variable {src : Source} {p : Place}

/-! ## Lines of other kinds -/

/-- A line is cut where some of its characters of ASCII end. -/
theorem slice_drop_line {n : Nat} (h : HasPlace src p) (hn : n ≤ p.line.length)
    (hascii : ∀ c ∈ p.line.take n, IsAscii c) :
    src.slice (p.offset + n) p.lineEnd.offset = pure (p.line.drop n) := by
  have hrest := p.line_append_nextLine
  have htake : p.rest.take n = p.line.take n := by
    rw [← hrest, List.take_append_of_le_length hn]
  have hlen : n ≤ p.rest.length := by
    rw [← hrest, List.length_append]
    omega
  have hreach : (p.drop n).Reaches p.lineEnd :=
    ⟨p.line.length - n, by rw [Place.lineEnd, Place.drop_drop, Nat.add_sub_cancel' hn]⟩
  have hsplit := (p.reaches_drop n).upTo_append hreach
  rw [Place.upTo_drop, p.upTo_lineEnd, htake] at hsplit
  rw [← Place.offset_drop_of_ascii hlen (htake ▸ hascii),
    (h.reached (p.reaches_drop n)).slice_eq hreach,
    List.append_cancel_left (hsplit.trans (List.take_append_drop n p.line).symm)]

/-- The space behind a bar is seen by its byte. -/
theorem pipedLine_eq {cs : List Char} (h : HasPlace src p) (hp : p.rest = '|' :: cs) :
    src.pipedLine p.offset = .ofPlaced (.ok (pipedLine p)) := by
  have hline := Place.line_cons hp (by decide) (by decide)
  obtain ⟨hone, hoffset, -⟩ := h.drop_one hp (by decide)
  rw [Source.pipedLine, h.lineEnd_eq, pure_bind]
  dsimp only
  by_cases hspace : src.peek (p.offset + 1) = some ' '
  · -- The space behind the bar is on the line, as it breaks none.
    obtain ⟨ds, hds⟩ := hone.head_of_peek (hoffset ▸ hspace) (by decide)
    have hmore := Place.line_cons hds (by decide) (by decide)
    have hlt : p.offset + 1 < p.lineEnd.offset := by
      have hsize : Char.utf8Size '|' = 1 ∧ Char.utf8Size ' ' = 1 := ⟨rfl, rfl⟩
      rw [p.reaches_lineEnd.offset_eq, p.upTo_lineEnd, hline, hmore, byteSize_cons, byteSize_cons]
      omega
    have hascii : ∀ c ∈ p.line.take 2, IsAscii c := by
      rw [hline, hmore]
      exact List.forall_mem_cons.2 ⟨by decide, List.forall_mem_singleton.2 (by decide)⟩
    rw [if_pos ⟨hspace, hlt⟩, h.slice_drop_line (by simp [hline, hmore]) hascii, pure_bind,
      h.nextLine_lineEnd, pipedLine, hmore, hline, hmore]
    rfl
  · have hascii : ∀ c ∈ p.line.take 1, IsAscii c := by
      rw [hline]
      exact List.forall_mem_singleton.2 (by decide)
    rw [if_neg fun hand => hspace hand.1, h.slice_drop_line (by simp [hline]) hascii, pure_bind,
      h.nextLine_lineEnd, pipedLine, hline]
    split
    · rename_i ds hds
      have hhead : ∃ es, (p.drop 1).rest = ' ' :: es :=
        ⟨_, by rw [← (p.drop 1).line_append_nextLine, hds]; rfl⟩
      obtain ⟨es, hes⟩ := hhead
      exact absurd (hoffset ▸ hone.peek_head hes (by decide)) hspace
    · rfl

/-- A line of text that starts with a mark is read from bytes as from characters. -/
theorem literalLine_eq (h : HasPlace src p) :
    src.literalLine p.offset = .ofPlaced (.ok (literalLine p)) := by
  rw [Source.literalLine, h.lineEnd_eq, pure_bind, h.slice_line, pure_bind, h.nextLine_lineEnd]
  rfl

/-- A comment is read behind its slashes. -/
theorem commentLines_eq (indent : Nat) {cs : List Char} (h : HasPlace src p)
    (hp : p.rest = '/' :: '/' :: cs) :
    src.commentLines indent p.offset = .ofPlaced (.ok (commentLines indent p)) := by
  have hline := Place.line_comment hp
  have hbuffered :
      (!(['/', '/', '-'].isPrefixOf p.rest)) = ((p.rest.drop 2).head? != some '-') := by
    rw [hp]
    cases cs with
    | nil => rfl
    | cons c cs => simp [List.isPrefixOf, bne, Bool.beq_comm]
  have hstop := min_lastStop (nestedLines indent p.nextLine).1 p.lineEnd
  have hspan : Span.ofRange p.offset
      ((((nestedLines indent p.nextLine).1.map nestedLine).getLast?.map (·.span.stop)).getD
        p.lineEnd.offset) = _ := congrArg (Span.mk (min p.offset Span.limit)) hstop
  have hfirst : src.slice (p.offset + if (p.rest.drop 2).head? != some '-' then 2 else 3)
      p.lineEnd.offset =
        pure (p.line.drop (if (p.rest.drop 2).head? != some '-' then 2 else 3)) := by
    split
    · refine h.slice_drop_line (by simp [hline]) ?_
      rw [hline]
      exact List.forall_mem_cons.2 ⟨by decide, List.forall_mem_singleton.2 (by decide)⟩
    · -- A comment that is not kept has a hyphen on its line, behind the slashes.
      rename_i hhyphen
      obtain ⟨ds, hds⟩ : ∃ ds, (p.drop 2).rest = '-' :: ds :=
        List.head?_eq_some_iff.1 (by simpa using hhyphen)
      have hmore := Place.line_cons hds (by decide) (by decide)
      refine h.slice_drop_line (by simp [hline, hmore]) ?_
      rw [hline, hmore]
      exact List.forall_mem_cons.2 ⟨by decide,
        List.forall_mem_cons.2 ⟨by decide, List.forall_mem_singleton.2 (by decide)⟩⟩
  rw [Source.commentLines, h.slice_rest, pure_bind, h.lineEnd_eq, pure_bind, hbuffered]
  dsimp only
  rw [hfirst, pure_bind, h.nextLine_lineEnd, pure_bind,
    (h.reached p.reaches_nextLine).nestedLines_eq indent, pure_bind]
  dsimp only
  rw [hspan, List.flatMap_map]
  rfl

theorem isPrefixOf_pair {c d : Char} {cs : List Char} :
    [c, d].isPrefixOf cs = true ↔ ∃ ds, cs = c :: d :: ds := by
  rw [List.isPrefixOf_iff_prefix]
  exact exists_congr fun ds => eq_comm

theorem lineContent_other (indent : Nat) (h : HasPlace src p)
    (hcomment : ∀ cs, p.rest ≠ '/' :: '/' :: cs) (hcode : ∀ cs, p.rest ≠ '!' :: '=' :: cs) :
    src.lineContent indent p.offset =
      match src.peek p.offset with
      | some '|' => src.pipedLine p.offset
      | some '<' => src.literalLine p.offset
      | some '-' | some '=' => .failAt .unsupportedCode p.offset (p.offset + 1)
      | some '+' => .failAt (.unsupportedConstruct "+mixin") p.offset (p.offset + 1)
      | _ => src.tagLine indent p.offset := by
  have hslashes : ¬['/', '/'].isPrefixOf p.rest = true :=
    mt isPrefixOf_pair.1 (not_exists.2 hcomment)
  have hbang : ¬['!', '='].isPrefixOf p.rest = true := mt isPrefixOf_pair.1 (not_exists.2 hcode)
  rw [Source.lineContent, h.slice_rest, pure_bind, if_neg hslashes]
  exact if_neg hbang

/-- What is on a line is read from bytes as from characters, whatever it starts with. -/
theorem lineContent_eq (indent : Nat) (h : HasPlace src p) :
    src.lineContent indent p.offset = .ofPlaced (lineContent indent p) := by
  rw [lineContent]
  split
  · rename_i cs hp
    rw [Source.lineContent, h.slice_rest, pure_bind, if_pos (isPrefixOf_pair.2 ⟨cs, hp⟩),
      h.commentLines_eq indent hp]
  · rename_i cs hp
    rw [Source.lineContent, h.slice_rest, pure_bind, if_neg (by simp [hp]),
      if_pos (isPrefixOf_pair.2 ⟨cs, hp⟩), ← Place.offset_drop_two hp (by decide) (by decide)]
    rfl
  · rename_i cs hp
    rw [h.lineContent_other indent (by simp [hp]) (by simp [hp]), h.peek_head hp (by decide)]
    exact h.pipedLine_eq hp
  · rename_i cs hp
    rw [h.lineContent_other indent (by simp [hp]) (by simp [hp]), h.peek_head hp (by decide)]
    exact h.literalLine_eq
  · rename_i cs hp
    rw [h.lineContent_other indent (by simp [hp]) (by simp [hp]), h.peek_head hp (by decide),
      ← Place.offset_drop_one hp (by decide)]
    rfl
  · rename_i cs hp
    rw [h.lineContent_other indent (by simp [hp]) (by simp [hp]), h.peek_head hp (by decide),
      ← Place.offset_drop_one hp (by decide)]
    rfl
  · rename_i cs hp
    rw [h.lineContent_other indent (by simp [hp]) (by simp [hp]), h.peek_head hp (by decide),
      ← Place.offset_drop_one hp (by decide)]
    rfl
  · rename_i hcomment hcode hbar hless hhyphen hequals hplus
    rw [h.lineContent_other indent (fun cs => hcomment cs) (fun cs => hcode cs), ← h.tagLine_eq]
    split
    · exact absurd ‹_› (h.peek_ne (by decide) fun cs => hbar cs)
    · exact absurd ‹_› (h.peek_ne (by decide) fun cs => hless cs)
    · exact absurd ‹_› (h.peek_ne (by decide) fun cs => hhyphen cs)
    · exact absurd ‹_› (h.peek_ne (by decide) fun cs => hequals cs)
    · exact absurd ‹_› (h.peek_ne (by decide) fun cs => hplus cs)
    · rfl

/-! ## Texts -/

theorem takeWhile_isIndent_line (p : Place) :
    p.line.takeWhile isIndent = p.rest.takeWhile isIndent := by
  have hline : p.line <+: p.rest := ⟨_, p.line_append_nextLine⟩
  have hlength : (p.line.takeWhile isIndent).length = (p.rest.takeWhile isIndent).length :=
    p.indentWidth_line
  exact (List.prefix_of_prefix_length_le ((List.takeWhile_prefix _).trans hline)
    (List.takeWhile_prefix _) (Nat.le_of_eq hlength)).eq_of_length hlength

theorem offset_drop_indent (p : Place) : (p.drop p.indent).offset = p.offset + p.indent :=
  Place.offset_drop_of_ascii (List.takeWhile_prefix _).length_le fun c hc =>
    isAscii_of_isIndent (isIndent_of_mem_take (Nat.le_refl _) c hc)

/-- The columns of a line are counted in bytes, as blanks are single bytes. -/
theorem measureIndent_eq (p : Place) :
    Source.measureIndent p.line p.offset =
      if mixesIndent p then .of (.error (.between .mixedIndent p (p.drop p.indent)))
      else pure p.indent := by
  have hleading : (spell p.line).take p.indent = p.rest.takeWhile isIndent := by
    have hprefix := List.prefix_iff_eq_take.1 (List.takeWhile_prefix (l := spell p.line) isIndent)
    rw [takeWhile_isIndent_spell, takeWhile_isIndent_line] at hprefix
    exact hprefix.symm
  have hle : p.indent ≤ (spell p.line).length := by
    have hlength := congrArg List.length hleading
    rw [List.length_take] at hlength
    have hindent : p.indent = (p.rest.takeWhile isIndent).length := rfl
    omega
  rw [Source.measureIndent, indentWidth_spell, p.indentWidth_line, if_pos hle, hleading,
    ← offset_drop_indent, mixesIndent]
  rfl

/-- A line that is not blank: its indentation, what it opens or closes, its content and the
    further lines. -/
theorem scanLines_content {levels : List Nat} {first : Bool} (h : HasPlace src p)
    (hp : p.rest ≠ []) (hb : ¬isBlankText p.line = true) (hmix : ¬mixesIndent p = true) :
    src.scanLines levels first p.offset =
      match openLine levels first p.indent with
      | none => .of (.error (.between (.inconsistentIndent p.indent) p (p.drop p.indent)))
      | some (opening, inner) => do
        let (content, next) ← .ofPlaced (lineContent p.indent (p.drop p.indent))
        let more ← src.onward p.offset next fun _ => src.scanLines inner false next
        return opening.map (⟨·, (p.drop p.indent).point⟩) ++ (content ++ more) := by
  rw [Source.scanLines, if_pos (h.lt_size_iff.2 hp), h.lineEnd_eq, pure_bind, h.slice_line,
    pure_bind, isBlankText_spell, if_neg hb, measureIndent_eq, if_neg hmix, pure_bind,
    ← offset_drop_indent]
  cases openLine levels first p.indent with
  | none => rfl
  | some o =>
    dsimp only
    rw [(h.reached (p.reaches_drop p.indent)).lineContent_eq]
    rfl

/-- From any line on, bytes are scanned as characters are, by recursion along the lines. -/
theorem scanLines_eq (levels : List Nat) (first : Bool) (h : HasPlace src p) :
    src.scanLines levels first p.offset = .of (scanLines levels first p) := by
  fun_induction scanLines levels first p with
  | case1 levels first p hp =>
    rw [Source.scanLines, if_neg fun hlt => h.lt_size_iff.1 hlt hp]
    rfl
  | case2 levels first p hp hb ih =>
    rw [Source.scanLines, if_pos (h.lt_size_iff.2 hp), h.lineEnd_eq, pure_bind, h.slice_line,
      pure_bind, isBlankText_spell, if_pos hb, h.nextLine_eq, pure_bind,
      h.onward_eq p.reaches_nextLine (Place.nextLine_lt hp), ih (h.reached p.reaches_nextLine)]
  | case3 levels first p hp hb start hmix =>
    rw [Source.scanLines, if_pos (h.lt_size_iff.2 hp), h.lineEnd_eq, pure_bind, h.slice_line,
      pure_bind, isBlankText_spell, if_neg hb, measureIndent_eq, if_pos hmix]
    rfl
  | case4 levels first p hp hb start hmix hopen =>
    rw [h.scanLines_content hp hb hmix, hopen]
  | case5 levels first p hp hb start hmix opening inner hopen e hc =>
    rw [h.scanLines_content hp hb hmix, hopen]
    dsimp only
    rw [show lineContent p.indent (p.drop p.indent) = _ from hc]
    rfl
  | case6 levels first p hp hb start hmix opening inner hopen content next hc ih =>
    have hreach := (p.reaches_drop p.indent).trans (lineContent_reaches hc).1
    have hlt := Nat.lt_of_lt_of_le (lineContent_reaches hc).2 (p.length_drop_le p.indent)
    rw [h.scanLines_content hp hb hmix, hopen]
    dsimp only
    rw [show lineContent p.indent (p.drop p.indent) = _ from hc, Checked.ofPlaced_ok, pure_bind]
    dsimp only
    rw [h.onward_eq hreach hlt, ih (h.reached hreach)]
    cases scanLines inner false next <;> rfl

end HasPlace

/-- Every text is scanned by byte offsets, to the same outcome as by characters. -/
theorem Source.scan_eq (text : String) : Source.scan ⟨text⟩ = .of (Token.scan text) :=
  HasPlace.scanLines_eq [] true (HasPlace.ofText ⟨text⟩)

end SlotMarkup
