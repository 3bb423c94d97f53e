import SlotMarkup.Proofs.ByteLines

/-!
# Attributes by byte offsets

A list of attributes is read to the same end by byte offsets as by characters. Where characters
outside ASCII stand in a value, they are passed byte by byte (`HasPlace.valueEnd_plain`). A name
or value is cut out between places.

* `HasPlace.valueEnd_eq`: a raw value;
* `HasPlace.readAttribute_eq`: an attribute;
* `HasPlace.attributesFrom_eq`: a list of attributes.
-/

namespace SlotMarkup

namespace HasPlace

variable {src : Source} {p q : Place}

/-! ## Strings and values -/

/-- A string ends at the same byte, or is open for both readers. -/
theorem stringEnd_eq {quote : Char} {cs : List Char} (h : HasPlace src p) (hq : IsQuote quote)
    (hp : p.rest = quote :: cs) :
    src.stringEnd quote p.offset = .of ((stringEnd quote p).map Place.offset) := by
  obtain ⟨hone, hoffset, hrest⟩ := h.drop_one hp (isAscii_of_isQuote hq)
  rw [Source.stringEnd, ← hoffset, hone.view_eq, hrest, quotedLength?_spell hq, stringEnd, hp,
    List.drop_one, List.tail_cons]
  cases quotedLength? quote cs with
  | none =>
    rw [← h.offset_final]
    rfl
  | some n =>
    dsimp only [Option.map_some]
    rw [Nat.add_comm n, ← Place.drop_drop, Except.map, Place.offset_drop (p.drop 1) n,
      hrest]
    rfl

/-- Bytes outside ASCII have no meaning in a value. -/
theorem valueEnd_plain (src : Source) (depth : Nat) {ds es : List Char} (hds : ∀ d ∈ ds, ¬IsAscii d)
    {pos : Nat} (hview : src.view pos = ds ++ es) :
    src.valueEnd depth pos = src.valueEnd depth (pos + ds.length) := by
  induction ds generalizing pos with
  | nil => rfl
  | cons d ds ih =>
    rw [List.forall_mem_cons] at hds
    have hne {x : Char} (hx : IsAscii x) : d ≠ x := fun h => hds.1 (h ▸ hx)
    have hblank : ¬isBlank d = true := fun hb => hds.1 (isAscii_of_isBlank hb)
    have hnext : src.view (pos + 1) = ds ++ es := by
      rw [Source.view, ← List.drop_drop, ← Source.view, hview]
      rfl
    have hpos : pos < src.size := by
      refine Nat.lt_of_not_le fun hle => ?_
      rw [Source.view, List.drop_eq_nil_of_le hle] at hview
      simp at hview
    have hstep : src.valueEnd depth pos = src.valueEnd depth (pos + 1) := by
      rw [Source.valueEnd, Source.peek, hview, List.cons_append, List.head?_cons]
      dsimp only
      rw [if_neg, if_neg, if_neg, if_neg, Source.onward_eq hpos (Nat.lt_succ_self pos)]
      · rintro ⟨-, hcomma | hb⟩
        · exact hne (by decide) hcomma
        · exact hblank hb
      all_goals
        rintro (rfl | rfl | rfl)
        all_goals exact hds.1 (by decide)
    rw [hstep, ih hds.2 hnext, List.length_cons, Nat.add_right_comm, Nat.add_assoc]

/-- At a character of ASCII the reader by bytes does what the other one does. -/
theorem valueEnd_cons {depth : Nat} {c : Char} {cs : List Char} (h : HasPlace src p)
    (hp : p.rest = c :: cs) (hc : IsAscii c) :
    src.valueEnd depth p.offset =
      if c = '\'' ∨ c = '"' ∨ c = '\x60' then do
        let next ← src.stringEnd c p.offset
        src.onward p.offset next fun _ => src.valueEnd depth next
      else if c = '(' ∨ c = '[' ∨ c = '\x7b' then src.valueEnd (depth + 1) (p.drop 1).offset
      else if c = ')' ∨ c = ']' ∨ c = '\x7d' then
        if depth = 0 then pure p.offset else src.valueEnd (depth - 1) (p.drop 1).offset
      else if depth = 0 ∧ (c = ',' ∨ isBlank c) then pure p.offset
      else src.valueEnd depth (p.drop 1).offset := by
  have hlt : (p.drop 1).rest.length < p.rest.length :=
    Place.length_drop_lt (by simp [hp]) Nat.one_pos
  rw [Source.valueEnd, h.peek_head hp hc, ← Place.offset_drop_one hp hc]
  simp only [h.onward_eq (p.reaches_drop 1) hlt]

/-- A value ends at the same character. -/
theorem valueEnd_eq (depth : Nat) (h : HasPlace src p) :
    src.valueEnd depth p.offset = .of ((valueEnd depth p).map Place.offset) := by
  fun_induction valueEnd depth p with
  | case1 depth p hp =>
    rw [Source.valueEnd, h.peek_eq_none_iff.2 hp]
    rfl
  | case2 depth p c cs hp hq q hstring ih =>
    have hreach := reaches_stringEnd hstring
    rw [h.valueEnd_cons hp (isAscii_of_isQuote hq), if_pos hq, h.stringEnd_eq hq hp, hstring,
      Checked.of_map_ok, pure_bind, h.onward_eq hreach (stringEnd_lt (by simp [hp]) hstring)]
    exact ih (h.reached hreach)
  | case3 depth p c cs hp hq e hstring =>
    rw [h.valueEnd_cons hp (isAscii_of_isQuote hq), if_pos hq, h.stringEnd_eq hq hp, hstring]
    rfl
  | case4 depth p c cs hp hq hopen ih =>
    have hc : IsAscii c := by rcases hopen with rfl | rfl | rfl <;> decide
    rw [h.valueEnd_cons hp hc, if_neg hq, if_pos hopen, ih (h.drop_one hp hc).1]
  | case5 p c cs hp hq hopen hclose =>
    have hc : IsAscii c := by rcases hclose with rfl | rfl | rfl <;> decide
    rw [h.valueEnd_cons hp hc, if_neg hq, if_neg hopen, if_pos hclose, if_pos rfl]
    rfl
  | case6 depth p c cs hp hq hopen hclose hdepth ih =>
    have hc : IsAscii c := by rcases hclose with rfl | rfl | rfl <;> decide
    rw [h.valueEnd_cons hp hc, if_neg hq, if_neg hopen, if_pos hclose, if_neg hdepth,
      ih (h.drop_one hp hc).1]
  | case7 depth p c cs hp hq hopen hclose hend =>
    have hc : IsAscii c := hend.2.elim (fun h => h ▸ by decide) isAscii_of_isBlank
    rw [h.valueEnd_cons hp hc, if_neg hq, if_neg hopen, if_neg hclose, if_pos hend]
    rfl
  | case8 depth p c cs hp hq hopen hclose hend ih =>
    by_cases hc : IsAscii c
    · rw [h.valueEnd_cons hp hc, if_neg hq, if_neg hopen, if_neg hclose, if_neg hend,
        ih (h.drop_one hp hc).1]
    · -- A character outside ASCII is passed byte by byte.
      have hview : src.view p.offset = spellChar c ++ spell cs := by rw [h.view_eq, hp, spell_cons]
      have hoffset : p.offset + (spellChar c).length = (p.drop 1).offset := by
        rw [length_spellChar, Place.offset_drop, hp, List.take_succ_cons, List.take_zero]
        rfl
      rw [valueEnd_plain src depth (fun d hd => not_ascii_of_mem_spellChar hc hd) hview, hoffset,
        ih (h.reached (p.reaches_drop 1))]

/-! ## Attributes -/

/-- A quoted name is cut out between its quotes, of which the last is the byte before the end. -/
theorem attributeName_quoted {c : Char} {cs : List Char} (h : HasPlace src p)
    (hp : p.rest = c :: cs) (hq : c = '\'' ∨ c = '"') : src.attributeName p.offset =
      .ofPlaced ((stringEnd c p).map fun q => (((p.drop 1).upTo q).dropLast, q)) := by
  have hquote : IsQuote c := hq.imp_right .inl
  have hascii := isAscii_of_isQuote hquote
  obtain ⟨hone, hoffset, hrest⟩ := h.drop_one hp hascii
  have hpeek : (src.peek p.offset).filter (fun b => b == '\'' || b == '"') = some c := by
    rw [h.peek_head hp hascii]
    exact Option.filter_some_pos (by simpa using hq)
  rw [Source.attributeName, hpeek]
  dsimp only
  rw [h.stringEnd_eq hquote hp]
  cases hstring : stringEnd c p with
  | error e => rfl
  | ok q =>
    obtain ⟨as, rfl⟩ := stringEnd_spec hp hstring
    have hupTo : p.upTo q = c :: (as ++ [c]) := by
      refine Place.upTo_eq_of_append ?_
      rw [hp, List.cons_append, List.append_assoc]
      rfl
    have hstop : q.offset - 1 = ((p.drop 1).drop as.length).offset := by
      have hsize := utf8Size_of_ascii hascii
      rw [(reaches_stringEnd hstring).offset_eq, hupTo, Place.offset_drop (p.drop 1), hrest,
        List.take_left, byteSize_cons, byteSize_append, byteSize_cons, byteSize_nil, hoffset]
      omega
    rw [Checked.of_map_ok, pure_bind, hstop, ← hoffset, hone.slice_eq (Place.reaches_drop _ _),
      Place.upTo_drop, hrest, List.take_left, pure_bind, Except.map, Place.upTo_of_quotes hp,
      List.dropLast_concat]
    rfl

/-- A name without quotes is cut out before the character that ends it. -/
theorem attributeName_bare {c : Char} {cs : List Char} (h : HasPlace src p) (hp : p.rest = c :: cs)
    (hq : ¬(c = '\'' ∨ c = '"')) : src.attributeName p.offset = .ofPlaced
      (if nameLength p.rest = 0 then .error (.unexpected p)
      else .ok (p.rest.take (nameLength p.rest), p.drop (nameLength p.rest))) := by
  have hne : p.rest ≠ [] := hp ▸ List.cons_ne_nil c cs
  have hpeek : (src.peek p.offset).filter (fun b => b == '\'' || b == '"') = none := by
    obtain ⟨d, hd, hpeek⟩ := h.peek_cons hp
    rw [hpeek]
    refine Option.filter_some_neg ?_
    rw [← Bool.not_eq_true, Bool.or_eq_true, beq_iff_eq, beq_iff_eq,
      eq_iff_of_mem_spellChar (by decide) hd, eq_iff_of_mem_spellChar (by decide) hd]
    exact hq
  have hstop : p.offset + nameLength (src.view p.offset) =
      (p.drop (nameLength p.rest)).offset := by
    rw [h.view_eq, nameLength_spell, Place.offset_drop]
  have hempty : (p.drop (nameLength p.rest)).offset = p.offset ↔ nameLength p.rest = 0 := by
    rw [Place.offset_drop, Nat.add_eq_left, byteSize_eq_zero_iff, List.take_eq_nil_iff,
      or_iff_left hne]
  rw [Source.attributeName, hpeek]
  dsimp only
  rw [hstop, h.slice_eq (p.reaches_drop _), pure_bind]
  by_cases hname : nameLength p.rest = 0
  · rw [if_pos (hempty.2 hname), if_pos hname, h.unexpected_eq hne]
    rfl
  · rw [if_neg (hname ∘ hempty.1), if_neg hname, Place.upTo_drop]
    rfl

/-- A name is read alike by bytes. -/
theorem attributeName_eq (h : HasPlace src p) (hp : p.rest ≠ []) :
    src.attributeName p.offset = .ofPlaced (attributeName p) := by
  obtain ⟨c, cs, hcs⟩ := List.exists_cons_of_ne_nil hp
  rw [attributeName_cons hcs]
  split
  · exact h.attributeName_quoted hcs ‹_›
  · exact h.attributeName_bare hcs ‹_›

/-- Both readers find an equals sign of the same length, or none. -/
theorem equals_cases (h : HasPlace src p) :
    equalsEnd? p = none ∧ src.equalsLength? p.offset = none ∨
      ∃ q n, equalsEnd? p = some q ∧ src.equalsLength? p.offset = some n ∧
        p.offset + n = q.offset := by
  rw [equalsEnd?, Source.equalsLength?]
  split
  · rename_i cs hp
    refine .inr ⟨_, 1, rfl, ?_, (Place.offset_drop_one hp (by decide)).symm⟩
    rw [if_pos (h.peek_head hp (by decide))]
  · rename_i cs hp
    obtain ⟨hone, hoffset, hrest⟩ := h.drop_one hp (by decide)
    have hbang := h.peek_head hp (by decide)
    refine .inr ⟨_, 2, rfl, ?_, (Place.offset_drop_two hp (by decide) (by decide)).symm⟩
    rw [if_neg (by simp [hbang]), if_pos ⟨hbang, hoffset ▸ hone.peek_head hrest (by decide)⟩]
  · rename_i heq hne
    refine .inl ⟨rfl, ?_⟩
    rw [if_neg, if_neg]
    · rintro ⟨hbang, hequals⟩
      obtain ⟨cs, hp⟩ := h.head_of_peek hbang (by decide)
      obtain ⟨hone, hoffset, hrest⟩ := h.drop_one hp (by decide)
      obtain ⟨ds, hds⟩ := hone.head_of_peek (hoffset ▸ hequals) (by decide)
      exact hne ds (by rw [hp, ← hrest, hds])
    · intro hequals
      obtain ⟨cs, hp⟩ := h.head_of_peek hequals (by decide)
      exact heq cs hp

/-- A value is read alike by bytes. -/
theorem attributeValue_eq (h : HasPlace src p) :
    src.attributeValue p.offset = .ofPlaced (attributeValue p) := by
  rw [Source.attributeValue, h.valueEnd_eq, attributeValue]
  cases hvalue : valueEnd 0 p with
  | error e => rfl
  | ok q =>
    have hreach := reaches_valueEnd hvalue
    have hempty : q.offset = p.offset ↔ p.upTo q = [] := by
      rw [hreach.offset_eq, Nat.add_eq_left, byteSize_eq_zero_iff]
    rw [Checked.of_map_ok, pure_bind]
    by_cases hnil : p.upTo q = []
    · rw [if_pos (hempty.2 hnil)]
      dsimp only
      rw [if_pos hnil]
      rfl
    · rw [if_neg (hnil ∘ hempty.1), h.slice_eq hreach, pure_bind]
      dsimp only
      rw [if_neg hnil]
      rfl

/-- An attribute is read alike by bytes. -/
theorem readAttribute_eq (h : HasPlace src p) (hp : p.rest ≠ []) :
    src.readAttribute p.offset = .ofPlaced (readAttribute p) := by
  rw [Source.readAttribute, h.attributeName_eq hp, readAttribute]
  cases hname : attributeName p with
  | error e => rfl
  | ok r =>
    obtain ⟨name, q⟩ := r
    have hq := h.reached (attributeName_reaches hname).1
    have hgap := hq.reached (q.reaches_skip isIndent)
    rw [Checked.ofPlaced_ok, pure_bind]
    dsimp only
    rw [hq.skip_eq asciiClass_isIndent]
    rcases hgap.equals_cases with ⟨hnone, hlength⟩ | ⟨r, n, hsome, hlength, hoffset⟩
    · rw [hlength, hnone]
      rfl
    · have hr := hgap.reached (reaches_equalsEnd? hsome)
      rw [hlength, hsome]
      dsimp only
      rw [hoffset, hr.skip_eq asciiClass_isBlank,
        (hr.reached (r.reaches_skip isBlank)).attributeValue_eq]
      cases attributeValue (r.skip isBlank) <;> rfl

/-- Before the end of a list the reader by bytes takes an attribute and goes on behind it. -/
theorem attributesFrom_step (start : Nat) {pos : Nat} (hskip : src.skip isSeparator pos = p.offset)
    (h : HasPlace src p) (hne : p.rest ≠ []) (hclose : ∀ cs, p.rest ≠ ')' :: cs) :
    src.attributesFrom start pos = (do
      let (t, next) ← src.readAttribute p.offset
      let (ts, next) ← src.onward pos next fun _ => src.attributesFrom start next
      pure (t :: ts, next)) := by
  rw [Source.attributesFrom, hskip]
  dsimp only
  split
  · rename_i hpeek
    exact absurd (h.peek_eq_none_iff.1 hpeek) hne
  · rename_i hpeek
    obtain ⟨cs, hcs⟩ := h.head_of_peek hpeek (by decide)
    exact absurd hcs (hclose cs)
  · rfl

/-- A list of attributes is read alike by bytes. -/
theorem attributesFrom_eq (start : Place) (h : HasPlace src p) :
    src.attributesFrom start.offset p.offset = .ofPlaced (attributesFrom start p) := by
  have hskip {p : Place} (h : HasPlace src p) :
      src.skip isSeparator p.offset = (p.skip isSeparator).offset :=
    h.skip_eq asciiClass_isSeparator
  fun_induction attributesFrom start p with
  | case1 p q hq =>
    have hlist := h.reached (p.reaches_skip isSeparator)
    rw [Source.attributesFrom, hskip h]
    dsimp only
    rw [hlist.peek_eq_none_iff.2 hq]
    dsimp only
    rw [hlist.size_of_end hq]
    rfl
  | case2 p q cs hq =>
    have hlist := h.reached (p.reaches_skip isSeparator)
    replace hq : (p.skip isSeparator).rest = ')' :: cs := hq
    rw [Source.attributesFrom, hskip h]
    dsimp only
    rw [hlist.peek_head hq (by decide), ← Place.offset_drop_one hq (by decide)]
    rfl
  | case3 p q e hattr hne hclose =>
    have hlist := h.reached (p.reaches_skip isSeparator)
    rw [attributesFrom_step start.offset (hskip h) hlist hne fun cs => hclose cs,
      hlist.readAttribute_eq hne, show readAttribute (p.skip isSeparator) = _ from hattr]
    rfl
  | case4 p q t r hattr hne hclose ih =>
    have hlist := h.reached (p.reaches_skip isSeparator)
    obtain ⟨hreach, hlt⟩ := readAttribute_reaches hattr
    -- The list goes on behind the attribute, which is not empty.
    rw [attributesFrom_step start.offset (hskip h) hlist hne fun cs => hclose cs,
      hlist.readAttribute_eq hne, show readAttribute (p.skip isSeparator) = _ from hattr,
      Checked.ofPlaced_ok, pure_bind]
    dsimp only
    rw [h.onward_eq ((p.reaches_skip _).trans hreach)
      (Nat.lt_of_lt_of_le hlt (p.reaches_skip _).length_le), ih (hlist.reached hreach)]
    cases attributesFrom start r <;> rfl

end HasPlace

end SlotMarkup
