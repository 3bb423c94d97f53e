import SlotMarkup.Proofs.ByteAttributes

/-!
# Tags by byte offsets

The tags of a line are read to the same end by byte offsets as by characters. The end of a tag
name is looked for from behind (`HasPlace.joinsEnd_eq`), and what may follow a head is known by
its first byte.

* `HasPlace.tagHead_eq`: the head of a tag;
* `HasPlace.textBlock_eq`, `HasPlace.tagBody_eq`: what is in a tag;
* `HasPlace.tagLine_eq`: the tags of a line.
-/

namespace SlotMarkup

namespace HasPlace

variable {src : Source} {p q : Place}

/-! ## Heads -/

/-- The end of a name is found from behind. -/
theorem joinsEnd_eq (h : HasPlace src p) {c : Char} {cs ds : List Char}
    (hp : p.rest = c :: cs ++ ds) (hascii : ∀ d ∈ c :: cs, IsAscii d) (hc : isNameJoint c = false) :
    src.joinsEnd p.offset (p.offset + (cs.length + 1)) =
      pure (p.offset + (dropTrailing isNameJoint (c :: cs)).length) := by
  -- By induction on the characters behind the first one, the last of them first.
  obtain ⟨rs, rfl⟩ : ∃ rs, cs = rs.reverse := ⟨cs.reverse, cs.reverse_reverse.symm⟩
  induction rs generalizing ds with
  | nil =>
    rw [List.reverse_nil, List.length_nil, Nat.zero_add, Source.joinsEnd,
      if_neg (Nat.lt_irrefl p.offset), dropTrailing_cons hc]
    rfl
  | cons d rs ih =>
    rw [List.reverse_cons, ← List.cons_append] at hp hascii
    have hlast : src.byteAt (p.offset + (rs.reverse.length + 1)) = pure d := by
      have hread : p.rest.take (rs.reverse.length + 2) = c :: rs.reverse ++ [d] := by
        rw [hp, List.take_left' (by simp)]
      have hoffset : (p.drop (rs.reverse.length + 2)).offset = p.offset + (rs.reverse.length + 2) :=
        Place.offset_drop_of_ascii (by simp [hp]) (hread ▸ hascii)
      have hbyte := h.byteAt_eq (c := d) (p.reaches_drop (rs.reverse.length + 2)) (by
        rw [Place.upTo_drop, hread, spell_of_ascii hascii, List.getLast?_concat])
      rwa [hoffset] at hbyte
    rw [List.reverse_cons, List.length_append, List.length_singleton, ← Nat.add_assoc p.offset,
      Source.joinsEnd, if_pos (by omega), hlast, pure_bind, ← List.cons_append,
      dropTrailing_append_singleton]
    split
    · exact ih (by rw [hp, List.append_assoc]) fun e he => hascii e (List.mem_append_left _ he)
    · rw [List.length_append, List.length_cons, List.length_singleton, Nat.add_assoc]

/-- Shorthands start with a single byte. -/
theorem isAscii_of_sigil? {c : Char} {lexeme : String → Lexeme} (hc : sigil? c = some lexeme) :
    IsAscii c := by
  rw [sigil?.eq_def] at hc
  split at hc
  · decide
  · decide
  · simp at hc

/-- The start of a shorthand is seen if a part of a name is next to it, in bytes as in
    characters. -/
theorem sigilAt_eq_some (h : HasPlace src p) {c : Char} {cs : List Char} (hp : p.rest = c :: cs)
    {lexeme : String → Lexeme} (hc : sigil? c = some lexeme) :
    src.sigilAt p.offset = if cs.head?.any isNamePart then some lexeme else none := by
  have hascii := isAscii_of_sigil? hc
  obtain ⟨hone, hoffset, hrest⟩ := h.drop_one hp hascii
  rw [Source.sigilAt, ← hoffset, hone.any_peek asciiClass_isNamePart, hrest, h.peek_head hp hascii,
    Option.bind_some, hc]

/-- A shorthand is found by its sigil and the byte behind it. -/
theorem sigilAt_eq_none (h : HasPlace src p) (hs : shorthand? p = none) :
    src.sigilAt p.offset = none := by
  cases hsigil : src.sigilAt p.offset with
  | none => rfl
  | some lexeme =>
    have hbind := hsigil
    rw [Source.sigilAt] at hbind
    split at hbind
    · obtain ⟨c, hpeek, hc⟩ := Option.bind_eq_some_iff.1 hbind
      obtain ⟨cs, hp⟩ := h.head_of_peek hpeek (isAscii_of_sigil? hc)
      rw [h.sigilAt_eq_some hp hc] at hsigil
      split at hsigil
      · rename_i hany
        obtain ⟨d, hd, hpart⟩ := Option.any_eq_true _ _ |>.1 hany
        obtain ⟨t, q, hsome, -⟩ := shorthand?_of_sigil hc hp ⟨d, hd, hpart⟩
        exact absurd (hs.symm.trans hsome) (by simp)
      · simp at hsigil
    · simp at hbind

/-- A shorthand read from bytes is the one read from characters. -/
theorem readShorthand_eq (h : HasPlace src p) {t : Token} (hs : shorthand? p = some (t, q)) :
    ∃ lexeme, src.sigilAt p.offset = some lexeme ∧
      src.readShorthand lexeme p.offset = pure (t, q.offset) := by
  rw [shorthand?] at hs
  split at hs
  · rename_i sigil c cs hp
    split at hs
    · rename_i lexeme hsigil
      split at hs
      · rename_i hpart
        obtain ⟨hone, hoffset, hrest⟩ := h.drop_one hp (isAscii_of_sigil? hsigil)
        obtain ⟨rfl, rfl⟩ := Prod.mk.inj (Option.some.inj hs)
        refine ⟨lexeme, ?_, ?_⟩
        · rw [h.sigilAt_eq_some hp hsigil, List.head?_cons, Option.any_some, if_pos hpart]
        · have hstop : p.drop (((c :: cs).takeWhile isNamePart).length + 1) =
              (p.drop 1).skip isNamePart := by
            rw [Place.skip, hrest, Place.drop_drop, Nat.add_comm]
          rw [Source.readShorthand, ← hoffset, hone.skip_eq asciiClass_isNamePart, hstop,
            hone.slice_eq (Place.reaches_skip _ _), Place.upTo_skip, hrest, pure_bind]
          rfl
      · simp at hs
    · simp at hs
  · simp at hs

theorem tagParts_shorthand (seen : Bool) (h : HasPlace src p) {t : Token}
    (hs : shorthand? p = some (t, q)) : src.tagParts seen p.offset = (do
      let (ts, next) ← src.tagParts true q.offset
      pure (t :: ts, next)) := by
  obtain ⟨lexeme, hsigil, hread⟩ := h.readShorthand_eq hs
  obtain ⟨hreach, hlt⟩ := shorthand?_reaches hs
  rw [Source.tagParts, hsigil]
  dsimp only
  rw [hread, pure_bind]
  dsimp only
  rw [h.onward_eq hreach hlt]

theorem tagParts_list (h : HasPlace src p) (hs : shorthand? p = none)
    (hp : p.rest.head? = some '(') : src.tagParts true p.offset = (do
      let (as, next) ← .ofPlaced (attributesFrom p (p.drop 1))
      let (ts, next) ← src.onward p.offset next fun _ => src.tagParts true next
      pure (.read .openAttributes p (p.drop 1) :: as ++ ts, next)) := by
  obtain ⟨cs, hcs⟩ := List.head?_eq_some_iff.1 hp
  obtain ⟨hone, hoffset, -⟩ := h.drop_one hcs (by decide)
  rw [Source.tagParts, h.sigilAt_eq_none hs]
  dsimp only
  rw [if_pos ⟨rfl, h.peek_head hcs (by decide)⟩, ← hoffset, hone.attributesFrom_eq p]
  rfl

/-- What is behind the name of a tag is read from bytes as from characters. -/
theorem tagParts_eq (h : HasPlace src p) :
    src.tagParts true p.offset = .ofPlaced (tagParts p) := by
  fun_induction tagParts p with
  | case1 p t q hs ih =>
    rw [h.tagParts_shorthand true hs, ih (h.reached (shorthand?_reaches hs).1)]
    cases tagParts q <;> rfl
  | case2 p hs hp e hlist =>
    -- A list of attributes is wrong only if what stands in it is.
    rw [h.tagParts_list hs hp]
    cases has : attributesFrom p (p.drop 1) with
    | error e' =>
      rw [attributeList, has, Scan.after_error] at hlist
      obtain rfl := Except.error.inj hlist
      rfl
    | ok r =>
      obtain ⟨as, next⟩ := r
      rw [attributeList, has, Scan.after_ok] at hlist
      simp at hlist
  | case3 p hs hp ts q hlist ih =>
    obtain ⟨as, has, rfl⟩ := Scan.after_eq_ok_iff.1 hlist
    obtain ⟨hreach, hlt⟩ := attributeList_reaches (fun hnil => by simp [hnil] at hp) hlist
    rw [h.tagParts_list hs hp, has, Checked.ofPlaced_ok, pure_bind]
    dsimp only
    rw [h.onward_eq hreach hlt, ih (h.reached hreach)]
    cases tagParts q <;> rfl
  | case4 p hs hp =>
    have hpeek : ¬src.peek p.offset = some '(' := fun hpeek =>
      hp ((h.peek_eq_some_iff (by decide)).1 hpeek)
    rw [Source.tagParts, h.sigilAt_eq_none hs]
    dsimp only
    rw [if_neg fun hopen => hpeek hopen.2]
    rfl

/-- The names of tags are made of single bytes. -/
theorem isAscii_of_isTagNamePart {c : Char} (hc : isTagNamePart c = true) : IsAscii c := by
  by_cases hascii : IsAscii c
  · exact hascii
  · have hsame := asciiClass_isTagNamePart c '\x80' hascii (by decide)
    rw [hc] at hsame
    exact absurd hsame (by decide)

/-- A tag name is cut out behind its last word. -/
theorem joinsEnd_tagName (h : HasPlace src p) {name : List Char}
    (hname : tagName? p.rest = some name) :
    src.joinsEnd p.offset (src.skip isTagNamePart p.offset) = pure (p.drop name.length).offset ∧
      src.slice p.offset (p.drop name.length).offset = pure name := by
  obtain ⟨ds, hds, -⟩ := wordBreak_tagName? hname
  obtain ⟨c, cs, hp⟩ := List.exists_cons_of_ne_nil (tagName?_ne_nil hname).1
  rw [tagName?] at hname
  split at hname
  · rename_i hword
    rw [hp, List.head?_cons, Option.map_some, Option.getD_some] at hword
    have htake : p.rest.takeWhile isTagNamePart = c :: cs.takeWhile isTagNamePart := by
      rw [hp, List.takeWhile_cons_of_pos (isTagNamePart_of_isWord hword)]
    have hascii : ∀ d ∈ c :: cs.takeWhile isTagNamePart, IsAscii d := fun d hd =>
      isAscii_of_isTagNamePart (mem_takeWhile (htake ▸ hd))
    have hsplit := List.takeWhile_append_dropWhile (p := isTagNamePart) (l := p.rest)
    have hskip : src.skip isTagNamePart p.offset =
        p.offset + ((cs.takeWhile isTagNamePart).length + 1) := by
      rw [h.skip_eq asciiClass_isTagNamePart, (p.reaches_skip _).offset_eq, p.upTo_skip, htake,
        byteSize_of_isAscii hascii, List.length_cons]
    rw [htake] at hname hsplit
    obtain rfl := Option.some.inj hname
    have hread : p.rest.take (dropTrailing isNameJoint (c :: cs.takeWhile isTagNamePart)).length =
        dropTrailing isNameJoint (c :: cs.takeWhile isTagNamePart) := by
      conv => lhs; rw [hds]
      exact List.take_left
    -- All characters of the name are one byte, so that its end is found by its length.
    have hkept : ∀ d ∈ dropTrailing isNameJoint (c :: cs.takeWhile isTagNamePart), IsAscii d :=
      fun d hd => hascii d (by
        rw [← dropTrailing_append_takeWhile isNameJoint (c :: cs.takeWhile isTagNamePart)]
        exact List.mem_append_left _ hd)
    refine ⟨?_, by rw [h.slice_eq (p.reaches_drop _), Place.upTo_drop, hread]⟩
    rw [hskip, h.joinsEnd_eq hsplit.symm hascii (isNameJoint_eq_false hword),
      Place.offset_drop, hread, byteSize_of_isAscii hkept]
  · simp at hname

/-- The head of a tag is read from bytes as from characters. -/
theorem tagHead_eq (h : HasPlace src p) : src.tagHead p.offset = .ofPlaced (tagHead p) := by
  have hword : (src.peek p.offset).any isWord = (p.rest.head?.map isWord).getD false := by
    rw [h.any_peek (asciiClass_of_ascii fun _ => isAscii_of_isWord)]
    cases p.rest <;> rfl
  rw [Source.tagHead, hword, tagHead]
  cases hname : tagName? p.rest with
  | none =>
    have hnot : ¬(p.rest.head?.map isWord).getD false = true := fun hw => by
      rw [tagName?, if_pos hw] at hname
      simp at hname
    rw [if_neg hnot]
    dsimp only
    cases hs : shorthand? p with
    | none =>
      rw [Source.tagParts, h.sigilAt_eq_none hs]
      dsimp only
      rw [if_neg (by simp)]
      rfl
    | some r =>
      obtain ⟨t, q⟩ := r
      rw [h.tagParts_shorthand false hs, (h.reached (shorthand?_reaches hs).1).tagParts_eq]
      dsimp only
      cases tagParts q <;> rfl
  | some name =>
    have hw : (p.rest.head?.map isWord).getD false = true := by
      rw [tagName?] at hname
      split at hname
      · assumption
      · simp at hname
    obtain ⟨hstop, hslice⟩ := h.joinsEnd_tagName hname
    rw [if_pos hw, hstop, pure_bind, hslice, pure_bind]
    dsimp only
    split
    · rfl
    · rw [(h.reached (p.reaches_drop _)).tagParts_eq]
      cases tagParts (p.drop name.length) <;> rfl

/-! ## Text blocks -/

/-- Where nested lines end, as far as spans tell it. -/
theorem min_lastStop (lines : List Stretch) (p : Place) :
    min (((lines.map nestedLine).getLast?.map (·.span.stop)).getD p.offset) Span.limit =
      min ((lines.getLast?.map Stretch.stop).getD p).offset Span.limit := by
  rw [List.getLast?_map]
  cases lines.getLast? with
  | none => rfl
  | some s => exact Nat.min_eq_left (Nat.min_le_right _ _)

/-- The tokens of collected lines, if there are any, are a block of texts with breaks between
    them. -/
theorem blockTokens_eq (lines : List Stretch) : Source.blockTokens (lines.map nestedLine) =
    match lines with
    | [] => []
    | s :: more => textLineTokens s ++ textLinesTokens more := by
  have hmore (lines : List Stretch) : ((lines.map nestedLine).flatMap fun line =>
      ⟨.newline, .point line.span.start⟩ :: Source.lineTokens line) = textLinesTokens lines := by
    induction lines with
    | nil => rfl
    | cons s lines ih =>
      rw [List.map_cons, List.flatMap_cons, ih]
      rfl
  cases lines with
  | nil => rfl
  | cons s more =>
    rw [List.map_cons, Source.blockTokens, hmore]
    rfl

/-- A block of text is read from bytes as from characters. -/
theorem textBlock_eq (indent : Nat) {cs : List Char} (h : HasPlace src p)
    (hp : p.rest = '.' :: cs) :
    src.textBlock indent p.offset = .ofPlaced (.ok (textBlock indent p)) := by
  have hstop := min_lastStop (nestedLines indent p.nextLine).1 (p.drop 1)
  rw [Place.offset_drop_one hp (by decide)] at hstop
  have hspan : Span.ofRange
      ((((nestedLines indent p.nextLine).1.map nestedLine).getLast?.map (·.span.stop)).getD
        (p.offset + 1)) _ = _ := congrArg (fun n => Span.mk n n) hstop
  rw [Source.textBlock, h.nextLine_eq, pure_bind,
    (h.reached p.reaches_nextLine).nestedLines_eq indent, pure_bind]
  dsimp only
  rw [hspan, blockTokens_eq, ← Place.offset_drop_one hp (by decide)]
  rfl

/-! ## Bodies -/

/-- The end of the line stays where it is, one character on. -/
theorem lineEnd_drop_one {c : Char} {cs : List Char} (hp : p.rest = c :: cs) (hn : c ≠ '\n')
    (hr : c ≠ '\r') : (p.drop 1).lineEnd = p.lineEnd := by
  rw [Place.lineEnd, Place.lineEnd, Place.line_cons hp hn hr, Place.drop_drop, List.length_cons,
    Nat.add_comm]

/-- The rest of a line is not blank unless its next character is, if there is one. -/
theorem all_isBlank_of_restIsBlank (hp : restIsBlank p = true) :
    p.rest.head?.all isBlank = true := by
  cases hrest : p.rest with
  | nil => rfl
  | cons c cs =>
    rw [List.head?_cons, Option.all_some]
    by_cases hc : isBlank c = true
    · exact hc
    · have hline := Place.line_cons hrest (fun h => hc (h ▸ rfl)) fun h => hc (h ▸ rfl)
      simp [restIsBlank, isBlankText, hline, hc] at hp

/-- The next line is found from the end of a line as from any other place of it. -/
theorem nextLine_lineEnd (h : HasPlace src p) :
    src.nextLine p.lineEnd.offset = pure p.nextLine.offset := by
  rw [(h.reached p.reaches_lineEnd).nextLine_eq, p.onLine_lineEnd.2]

/-- A dot opens a text block where the rest of the line is blank. That its next byte is blank
    is seen before the rest of the line is cut out. -/
theorem tagBody_dot (indent : Nat) {cs : List Char} (h : HasPlace src p) (hp : p.rest = '.' :: cs) :
    src.tagBody indent p.offset = .ofPlaced
      (if restIsBlank (p.drop 1) then .ok (textBlock indent p) else .error (.unexpected p)) := by
  obtain ⟨hone, hoffset, -⟩ := h.drop_one hp (by decide)
  have hbody : src.tagBody indent p.offset =
      if (src.peek (p.offset + 1)).all isBlank then do
        if ← src.restIsBlank (p.offset + 1) then src.textBlock indent p.offset
        else src.unexpected p.offset
      else src.unexpected p.offset := by
    rw [Source.tagBody, h.peek_head hp (by decide)]
    rfl
  rw [hbody, ← hoffset, hone.all_peek asciiClass_isBlank, hone.restIsBlank_eq, pure_bind]
  by_cases hb : restIsBlank (p.drop 1) = true
  · rw [if_pos (all_isBlank_of_restIsBlank hb), if_pos hb, if_pos hb, h.textBlock_eq indent hp]
  · rw [if_neg hb, if_neg hb, ite_self, h.unexpected_eq (by simp [hp])]
    rfl

/-- The text behind a space is the content of the tag. -/
theorem tagBody_space (indent : Nat) {cs : List Char} (h : HasPlace src p)
    (hp : p.rest = ' ' :: cs) : src.tagBody indent p.offset = .ofPlaced
      (if isBlankText (p.drop 1).line then .ok ([], p.nextLine)
      else .ok ([.read (.text (String.ofList (p.drop 1).line)) (p.drop 1) (p.drop 1).lineEnd],
        p.nextLine)) := by
  obtain ⟨hone, hoffset, -⟩ := h.drop_one hp (by decide)
  have hbody : src.tagBody indent p.offset = (do
      let stop ← src.lineEnd p.offset
      let text ← src.slice (p.offset + 1) stop
      let tokens := if isBlankText (spell text) then []
        else [⟨.text (String.ofList text), .ofRange (p.offset + 1) stop⟩]
      pure (tokens, ← src.nextLine stop)) := by
    rw [Source.tagBody, h.peek_head hp (by decide)]
    rfl
  rw [hbody, ← hoffset, h.lineEnd_eq, pure_bind, ← lineEnd_drop_one hp (by decide) (by decide),
    hone.slice_line, pure_bind, isBlankText_spell, hone.nextLine_lineEnd, pure_bind,
    Place.nextLine_drop_one hp (by decide)]
  split <;> rfl

/-- Nothing but blanks may follow a slash. -/
theorem tagBody_slash (indent : Nat) {cs : List Char} (h : HasPlace src p)
    (hp : p.rest = '/' :: cs) : src.tagBody indent p.offset = .ofPlaced
      (if restIsBlank (p.drop 1) then .ok ([], p.nextLine)
      else .error (.unexpected (p.drop 1))) := by
  obtain ⟨hone, hoffset, -⟩ := h.drop_one hp (by decide)
  have hbody : src.tagBody indent p.offset = (do
      if ← src.restIsBlank (p.offset + 1) then pure ([], ← src.nextLine (p.offset + 1))
      else src.unexpected (p.offset + 1)) := by
    rw [Source.tagBody, h.peek_head hp (by decide)]
    rfl
  rw [hbody, ← hoffset, hone.restIsBlank_eq, pure_bind]
  by_cases hb : restIsBlank (p.drop 1) = true
  · rw [if_pos hb, if_pos hb, hone.nextLine_eq, Place.nextLine_drop_one hp (by decide)]
    rfl
  · have hrest : (p.drop 1).rest ≠ [] := fun hnil => hb (by
      rw [restIsBlank, Place.line, hnil]
      rfl)
    rw [if_neg hb, if_neg hb, hone.unexpected_eq hrest]
    rfl

/-- An exclamation mark has no meaning alone. -/
theorem tagBody_bang (indent : Nat) {cs : List Char} (h : HasPlace src p) (hp : p.rest = '!' :: cs)
    (hcode : ∀ ds, p.rest ≠ '!' :: '=' :: ds) :
    src.tagBody indent p.offset = src.unexpected p.offset := by
  obtain ⟨hone, hoffset, hrest⟩ := h.drop_one hp (by decide)
  rw [Source.tagBody, h.peek_head hp (by decide)]
  refine if_neg fun hnext => ?_
  obtain ⟨ds, hds⟩ := hone.head_of_peek (hoffset ▸ hnext) (by decide)
  exact hcode ds (by rw [hp, ← hrest, hds])

/-- The body of a tag is read from bytes as from characters. -/
theorem tagBody_eq (indent : Nat) (h : HasPlace src p) (hend : ¬atLineEnd p = true) :
    src.tagBody indent p.offset = .ofPlaced (tagBody indent p) := by
  have hne : p.rest ≠ [] := fun hnil => hend (by rw [atLineEnd, hnil])
  rw [tagBody, if_neg hend]
  split
  · exact h.tagBody_dot indent ‹_›
  · exact h.tagBody_space indent ‹_›
  · exact h.tagBody_slash indent ‹_›
  · rename_i cs hp
    rw [Source.tagBody, h.peek_head hp (by decide), ← Place.offset_drop_one hp (by decide)]
    rfl
  · rename_i cs hp
    obtain ⟨hone, hoffset, hrest⟩ := h.drop_one hp (by decide)
    rw [Source.tagBody, h.peek_head hp (by decide), ← hoffset, hone.peek_head hrest (by decide),
      ← Place.offset_drop_two hp (by decide) (by decide)]
    rfl
  · rename_i cs hp
    rw [Source.tagBody, h.peek_head hp (by decide), h.lineEnd_eq]
    rfl
  · rename_i hdot hspace hslash hequals hcode hand
    have hdefault : src.tagBody indent p.offset = src.unexpected p.offset := by
      -- An exclamation mark is the one byte with a meaning that depends on the next one.
      by_cases hbang : src.peek p.offset = some '!'
      · obtain ⟨cs, hp⟩ := h.head_of_peek hbang (by decide)
        exact h.tagBody_bang indent hp fun ds => hcode ds
      · rw [Source.tagBody]
        split
        · exact absurd ‹_› (h.peek_ne (by decide) fun cs => hdot cs)
        · exact absurd ‹_› (h.peek_ne (by decide) fun cs => hspace cs)
        · exact absurd ‹_› (h.peek_ne (by decide) fun cs => hslash cs)
        · exact absurd ‹_› (h.peek_ne (by decide) fun cs => hequals cs)
        · exact absurd ‹_› hbang
        · exact absurd ‹_› (h.peek_ne (by decide) fun cs => hand cs)
        · rfl
    rw [hdefault, h.unexpected_eq hne]
    rfl

/-! ## Lines -/

theorem tagLine_colon {indent : Nat} {head : List Token} (h : HasPlace src p)
    (hhead : tagHead p = .ok (head, q)) (hcolon : q.rest.head? = some ':') :
    src.tagLine indent p.offset =
      if atLineEnd ((q.drop 1).skip isIndent) then
        .of (.error (.here .expectedTag ((q.drop 1).skip isIndent)))
      else do
        let (ts, next) ← src.tagLine indent ((q.drop 1).skip isIndent).offset
        return (head ++ .read .colon q (q.drop 1) :: ts, next) := by
  obtain ⟨cs, hcs⟩ := List.head?_eq_some_iff.1 hcolon
  obtain ⟨hreach, hlt⟩ := tagHead_reaches hhead
  have hq := h.reached hreach
  obtain ⟨hone, hoffset, -⟩ := hq.drop_one hcs (by decide)
  have hend : ¬src.atLineEnd q.offset = true := by
    rw [hq.atLineEnd_eq, atLineEnd, hcs]
    exact Bool.false_ne_true
  rw [Source.tagLine, h.tagHead_eq, hhead, Checked.ofPlaced_ok, pure_bind]
  dsimp only
  rw [if_neg hend, if_pos (hq.peek_head hcs (by decide)), ← hoffset,
    hone.skip_eq asciiClass_isIndent, (hone.reached (Place.reaches_skip _ _)).atLineEnd_eq,
    h.onward_eq (hreach.trans q.reaches_innerTag)
      (Nat.lt_of_le_of_lt q.reaches_innerTag.length_le hlt)]
  rfl

theorem tagLine_body {indent : Nat} {head : List Token} (h : HasPlace src p)
    (hhead : tagHead p = .ok (head, q)) (hcolon : ¬q.rest.head? = some ':') :
    src.tagLine indent p.offset = .ofPlaced ((tagBody indent q).after head) := by
  have hq := h.reached (tagHead_reaches hhead).1
  rw [Source.tagLine, h.tagHead_eq, hhead, Checked.ofPlaced_ok, pure_bind]
  dsimp only
  rw [hq.atLineEnd_eq]
  by_cases hend : atLineEnd q = true
  · rw [if_pos hend, hq.nextLine_eq, tagBody, if_pos hend, Scan.after_ok, List.append_nil]
    rfl
  · have hpeek : ¬src.peek q.offset = some ':' := fun hpeek =>
      hcolon ((hq.peek_eq_some_iff (by decide)).1 hpeek)
    rw [if_neg hend, if_neg hpeek, hq.tagBody_eq indent hend]
    cases tagBody indent q <;> rfl

/-- A line with a tag is read from bytes as from characters, by recursion along the colons. -/
theorem tagLine_eq (indent : Nat) (h : HasPlace src p) :
    src.tagLine indent p.offset = .ofPlaced (tagLine indent p) := by
  fun_induction tagLine indent p with
  | case1 p e hhead =>
    rw [Source.tagLine, h.tagHead_eq, hhead]
    rfl
  | case2 p head q hhead hcolon r hend =>
    rw [h.tagLine_colon hhead hcolon, if_pos hend]
    rfl
  | case3 p head q hhead hcolon r hend ih =>
    have hreach : p.Reaches r := (tagHead_reaches hhead).1.trans q.reaches_innerTag
    rw [h.tagLine_colon hhead hcolon, if_neg hend, ih (h.reached hreach)]
    cases tagLine indent r with
    | error e => rfl
    | ok s =>
      rw [Scan.after, Except.map, List.append_assoc]
      rfl
  | case4 p head q hhead hcolon => exact h.tagLine_body hhead hcolon

end HasPlace

end SlotMarkup
