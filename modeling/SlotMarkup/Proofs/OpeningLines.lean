import SlotMarkup.Proofs.LineGrammar

/-!
# Opening lines

The lines of a text that open something in its tree are its *opening lines*
(`openingLines`). They are found one after the other, as the content of a line can go on
in the lines after it.

* `openingLines_spec`: a line is an opening line unless it is blank, or a comment, a
  text block or an attribute list of an earlier opening line goes on in it.
-/

namespace SlotMarkup

/-- A line that opens something in the tree of a text. -/
structure OpeningLine where
  start : Place
  /-- The tokens of its content. -/
  content : List Token
  /-- The start of the next line that is none of its own. -/
  next : Place

/-- The width of a line's indentation. -/
def OpeningLine.indent (l : OpeningLine) : Nat := l.start.indent

/-- The opening lines from `p` on. -/
def openingLinesFrom (p : Place) : Except ScanError (List OpeningLine) :=
  if _hp : p.rest = [] then .ok []
  else if isBlankText p.line then openingLinesFrom p.nextLine
  else
    match _hc : lineContent p.indent (p.drop p.indent) with
    | .error e => .error e
    | .ok (content, next) => (openingLinesFrom next).map (⟨p, content, next⟩ :: ·)
termination_by p.rest.length
decreasing_by
  · exact Place.nextLine_lt _hp
  · exact Nat.lt_of_lt_of_le (lineContent_reaches _hc).2 (p.length_drop_le p.indent)

/-- A line that is not blank opens before those after its content. -/
theorem openingLinesFrom_cons {p next : Place} {content : List Token} (hp : p.rest ≠ [])
    (hb : isBlankText p.line = false)
    (hc : lineContent p.indent (p.drop p.indent) = .ok (content, next)) :
    openingLinesFrom p = (openingLinesFrom next).map (⟨p, content, next⟩ :: ·) := by
  rw [openingLinesFrom, dif_neg hp, if_neg (by simp [hb])]
  split
  · rename_i hc'
    exact absurd (hc'.symm.trans hc) (by simp)
  · rename_i content' next' hc'
    obtain ⟨rfl, rfl⟩ := Prod.mk.inj (Except.ok.inj (hc'.symm.trans hc))
    rfl

/-- The tokens of an opening line are those of its content. -/
theorem lineContent_of_mem {p : Place} {lines : List OpeningLine}
    (h : openingLinesFrom p = .ok lines) {l : OpeningLine} (hl : l ∈ lines) :
    lineContent l.indent (l.start.drop l.indent) = .ok (l.content, l.next) := by
  fun_induction openingLinesFrom p generalizing lines with
  | case1 =>
    obtain rfl := Except.ok.inj h
    simp at hl
  | case2 p _ _ ih => exact ih h hl
  | case3 => simp at h
  | case4 p _ _ content next hc ih =>
    obtain ⟨more, hmore, rfl⟩ := map_eq_ok_iff.1 h
    rcases List.mem_cons.1 hl with rfl | hl
    · exact hc
    · exact ih hmore hl

/-- The opening lines of a text. -/
def openingLines (text : String) : Except ScanError (List OpeningLine) :=
  openingLinesFrom (.ofText text)

/-- The starts of all lines from `p` on. -/
def lineStarts (p : Place) : List Place :=
  if _hp : p.rest = [] then [] else p :: lineStarts p.nextLine
termination_by p.rest.length
decreasing_by exact Place.nextLine_lt _hp

/-! ## Moving along a line -/

namespace Place

/-- `q` is on the same line as `p` and not before it. -/
def OnLine (p q : Place) : Prop := p.Reaches q ∧ q.nextLine = p.nextLine

theorem OnLine.refl (p : Place) : p.OnLine p := ⟨.refl p, rfl⟩

/-- To be on the line of one another is transitive. -/
theorem OnLine.trans {p q r : Place} (h : p.OnLine q) (k : q.OnLine r) : p.OnLine r :=
  ⟨h.1.trans k.1, k.2.trans h.2⟩

/-- Over characters that are no line feeds a place stays on its line. -/
theorem onLine_drop {p : Place} {as bs : List Char} (h : p.rest = as ++ bs)
    (has : ∀ c ∈ as, c ≠ '\n') : p.OnLine (p.drop as.length) := by
  refine ⟨p.reaches_drop _, ?_⟩
  have htake : p.rest.takeWhile (· != '\n') = as ++ bs.takeWhile (· != '\n') := by
    rw [h, List.takeWhile_append_of_pos fun c hc => by simpa using has c hc]
  rw [nextLine, nextLine, drop_drop, rest_drop, htake, h, List.drop_left, List.length_append,
    Nat.add_assoc]

theorem onLine_drop_one {p : Place} {c : Char} {cs : List Char} (h : p.rest = c :: cs)
    (hc : c ≠ '\n') : p.OnLine (p.drop 1) := by
  have hcons : p.rest = [c] ++ cs := h
  exact onLine_drop hcons (by simpa using hc)

theorem onLine_skip (p : Place) {f : Char → Bool} (hf : f '\n' = false) : p.OnLine (p.skip f) :=
  onLine_drop List.takeWhile_append_dropWhile.symm fun c hc hn => by
    have := mem_takeWhile hc
    simp [hn, hf] at this

/-- A later place is on the same line, or it is not before the next one. -/
theorem Reaches.onLine_or {p q : Place} (h : p.Reaches q) :
    p.OnLine q ∨ p.nextLine.Reaches q := by
  obtain ⟨n, rfl⟩ := h
  by_cases hn : n ≤ (p.rest.takeWhile (· != '\n')).length
  · have htake : p.rest.take n <+: p.rest.takeWhile (· != '\n') :=
      List.prefix_of_prefix_length_le (List.take_prefix _ _) (List.takeWhile_prefix _)
        (Nat.le_trans (List.length_take_le _ _) hn)
    have hle : n ≤ p.rest.length := Nat.le_trans hn (List.takeWhile_prefix _).length_le
    have hline := onLine_drop (List.take_append_drop n p.rest).symm fun c hc hcn => by
      have := mem_takeWhile (htake.subset hc)
      simp [hcn] at this
    rw [List.length_take, Nat.min_eq_left hle] at hline
    exact .inl hline
  · refine .inr ⟨n - ((p.rest.takeWhile (· != '\n')).length + 1), ?_⟩
    rw [nextLine, drop_drop]
    congr 1
    omega

end Place

/-! ## Content that stays on its line -/

/-- The content of a line that can go on in the lines after it. -/
def GoesOn (t : Token) : Prop :=
  t.kind = .comment ∨ t.kind = .openTextBlock ∨ t.kind = .openAttributes

/-- The name of a tag ends on the line it starts on. -/
theorem onLine_tagName {p : Place} {name : List Char} (h : tagName? p.rest = some name) :
    p.OnLine (p.drop name.length) := by
  obtain ⟨ds, hds, -⟩ := wordBreak_tagName? h
  refine Place.onLine_drop hds fun c hc hn => ?_
  rw [tagName?] at h
  split at h
  · have hmem : c ∈ p.rest.takeWhile isTagNamePart := by
      rw [← dropTrailing_append_takeWhile isNameJoint (p.rest.takeWhile isTagNamePart),
        Option.some.inj h]
      exact List.mem_append_left _ hc
    have := mem_takeWhile hmem
    rw [hn] at this
    exact absurd this (by decide)
  · simp at h

/-- A shorthand ends on the line it starts on. -/
theorem onLine_shorthand {p q : Place} {t : Token} (h : shorthand? p = some (t, q)) :
    p.OnLine q := by
  rw [shorthand?] at h
  split at h
  · rename_i s c cs hp
    split at h
    · rename_i f hf
      split at h
      · obtain ⟨-, rfl⟩ := Prod.mk.inj (Option.some.inj h)
        have hrest : p.rest = s :: (c :: cs).takeWhile isNamePart ++
            (c :: cs).dropWhile isNamePart := by
          rw [List.cons_append, List.takeWhile_append_dropWhile, hp]
        refine Place.onLine_drop hrest fun d hd hn => ?_
        subst hn
        rcases List.mem_cons.1 hd with rfl | hd
        · simp [sigil?] at hf
        · exact absurd (mem_takeWhile hd) (by decide)
      · simp at h
    · simp at h
  · simp at h

/-- What is behind the name of a tag ends on its line, unless something in it goes on. -/
theorem tagParts_onLine {p q : Place} {ts : List Token} (h : tagParts p = .ok (ts, q)) :
    (∃ t ∈ ts, GoesOn t) ∨ p.OnLine q := by
  fun_induction tagParts p generalizing ts with
  | case1 p t r hs ih =>
    obtain ⟨us, hus, rfl⟩ := Scan.after_eq_ok_iff.1 h
    rcases ih hus with ⟨u, hu, hk⟩ | hr
    · exact .inl ⟨u, List.mem_cons_of_mem _ hu, hk⟩
    · exact .inr ((onLine_shorthand hs).trans hr)
  | case2 => simp at h
  | case3 p _ hp us r hl ih =>
    obtain ⟨vs, -, rfl⟩ := Scan.after_eq_ok_iff.1 h
    obtain ⟨ws, -, rfl⟩ := Scan.after_eq_ok_iff.1 hl
    exact .inl ⟨_, List.mem_cons_self, .inr (.inr rfl)⟩
  | case4 =>
    obtain ⟨-, rfl⟩ := Prod.mk.inj (Except.ok.inj h)
    exact .inr (.refl _)

theorem tagHead_onLine {p q : Place} {ts : List Token} (h : tagHead p = .ok (ts, q)) :
    (∃ t ∈ ts, GoesOn t) ∨ p.OnLine q := by
  rw [tagHead] at h
  split at h
  · rename_i name hname
    dsimp only at h
    split at h
    · simp at h
    · obtain ⟨us, hus, rfl⟩ := Scan.after_eq_ok_iff.1 h
      rcases tagParts_onLine hus with ⟨u, hu, hk⟩ | hr
      · exact .inl ⟨u, List.mem_cons_of_mem _ hu, hk⟩
      · exact .inr ((onLine_tagName hname).trans hr)
  · split at h
    · rename_i t r hs
      obtain ⟨us, hus, rfl⟩ := Scan.after_eq_ok_iff.1 h
      rcases tagParts_onLine hus with ⟨u, hu, hk⟩ | hr
      · exact .inl ⟨u, List.mem_cons_of_mem _ hu, hk⟩
      · exact .inr ((onLine_shorthand hs).trans hr)
    · simp at h

/-! ## Content ends with a line -/

/-- The run of nested lines ends where a line does. -/
theorem nestedRun_nextLine (base : Nat) (p : Place) :
    ∃ r, p.Reaches r ∧ (nestedRun base p.nextLine).2 = r.nextLine := by
  generalize hq : p.nextLine = q
  fun_induction nestedRun base q generalizing p with
  | case1 => exact ⟨p, .refl p, hq.symm⟩
  | case2 q _ _ lines next h ih =>
    obtain ⟨r, hr, hnext⟩ := ih q rfl
    rw [h] at hnext
    exact ⟨r, (hq ▸ p.reaches_nextLine).trans hr, hnext⟩
  | case3 => exact ⟨p, .refl p, hq.symm⟩

/-- What is read as `ts` from `p` on ends with a line, and the next one starts at `q`. It
    is the line of `p`, unless a token goes on in later ones. -/
def EndsBefore (p q : Place) (ts : List Token) : Prop :=
  ∃ r, p.Reaches r ∧ q = r.nextLine ∧ ((∃ t ∈ ts, GoesOn t) ∨ p.OnLine r)

theorem endsBefore_nextLine (p : Place) (ts : List Token) : EndsBefore p p.nextLine ts :=
  ⟨p, .refl p, rfl, .inr (.refl p)⟩

/-- Lines that are collected are behind a token that goes on. -/
theorem endsBefore_nestedRun (base : Nat) (p : Place) {ts : List Token} (h : ∃ t ∈ ts, GoesOn t) :
    EndsBefore p (nestedRun base p.nextLine).2 ts := by
  obtain ⟨r, hr, hnext⟩ := nestedRun_nextLine base p
  exact ⟨r, hr, hnext, .inl h⟩

/-- More of the line can be read before what ends with it. -/
theorem EndsBefore.prepend {p q s : Place} {ts us : List Token} (h : EndsBefore q s us)
    (hq : p.Reaches q) (hline : (∃ t ∈ ts, GoesOn t) ∨ p.OnLine q) :
    EndsBefore p s (ts ++ us) := by
  obtain ⟨r, hr, hnext, hgoes⟩ := h
  refine ⟨r, hq.trans hr, hnext, ?_⟩
  rcases hline with ⟨t, ht, hk⟩ | hline
  · exact .inl ⟨t, List.mem_append_left _ ht, hk⟩
  · rcases hgoes with ⟨t, ht, hk⟩ | hgoes
    · exact .inl ⟨t, List.mem_append_right _ ht, hk⟩
    · exact .inr (hline.trans hgoes)

/-- A body ends with its line, unless something in it goes on. -/
theorem tagBody_ends {indent : Nat} {p q : Place} {ts : List Token}
    (h : tagBody indent p = .ok (ts, q)) : EndsBefore p q ts := by
  rw [tagBody] at h
  split at h
  · exact (Prod.mk.inj (Except.ok.inj h)).2 ▸ endsBefore_nextLine p ts
  · split at h
    · split at h
      · obtain ⟨rfl, rfl⟩ := Prod.mk.inj (Except.ok.inj h)
        exact endsBefore_nestedRun indent p ⟨_, List.mem_cons_self, .inr (.inl rfl)⟩
      · simp at h
    · dsimp only at h
      split at h <;> exact (Prod.mk.inj (Except.ok.inj h)).2 ▸ endsBefore_nextLine p ts
    · split at h
      · exact (Prod.mk.inj (Except.ok.inj h)).2 ▸ endsBefore_nextLine p ts
      · simp at h
    all_goals simp at h

/-- A line with a tag ends with its line, unless something in it goes on. -/
theorem tagLine_ends {indent : Nat} {p q : Place} {ts : List Token}
    (h : tagLine indent p = .ok (ts, q)) : EndsBefore p q ts := by
  fun_induction tagLine indent p generalizing ts with
  | case1 => simp at h
  | case2 => simp at h
  | case3 p head r hp =>
    rename_i hcolon s _ ih
    obtain ⟨us, hus, rfl⟩ := Scan.after_eq_ok_iff.1 h
    obtain ⟨cs, hcs⟩ := List.head?_eq_some_iff.1 hcolon
    have hs : r.OnLine s :=
      (Place.onLine_drop_one hcs (by decide)).trans ((r.drop 1).onLine_skip rfl)
    refine (ih hus).prepend ((tagHead_reaches hp).1.trans hs.1) ?_
    rcases tagHead_onLine hp with ⟨t, ht, hk⟩ | hr
    · exact .inl ⟨t, List.mem_append_left _ ht, hk⟩
    · exact .inr (hr.trans hs)
  | case4 p head r hp =>
    obtain ⟨us, hus, rfl⟩ := Scan.after_eq_ok_iff.1 h
    exact (tagBody_ends hus).prepend (tagHead_reaches hp).1 (tagHead_onLine hp)

/-- The content of a line ends with that line, unless a comment, a text block or an
    attribute list takes further ones. -/
theorem lineContent_ends {indent : Nat} {p q : Place} {ts : List Token}
    (h : lineContent indent p = .ok (ts, q)) : EndsBefore p q ts := by
  rw [lineContent] at h
  split at h
  · obtain ⟨rfl, rfl⟩ := Prod.mk.inj (Except.ok.inj h)
    exact endsBefore_nestedRun indent p ⟨_, List.mem_cons_self, .inl rfl⟩
  · simp at h
  · exact (Prod.mk.inj (Except.ok.inj h)).2 ▸ endsBefore_nextLine p ts
  · exact (Prod.mk.inj (Except.ok.inj h)).2 ▸ endsBefore_nextLine p ts
  · simp at h
  · simp at h
  · simp at h
  · exact tagLine_ends h

/-! ## All lines -/

/-- No line starts before the first one. -/
theorem length_le_of_mem_lineStarts {p q : Place} (h : q ∈ lineStarts p) :
    q.rest.length ≤ p.rest.length := by
  fun_induction lineStarts p with
  | case1 => simp at h
  | case2 p _ ih =>
    rcases List.mem_cons.1 h with rfl | h
    · exact Nat.le_refl _
    · exact Nat.le_trans (ih h) p.reaches_nextLine.length_le

theorem lineStarts_of_rest_nil {p : Place} (h : p.rest = []) : lineStarts p = [] := by
  rw [lineStarts, dif_pos h]

/-- The lines from the next one on are the last ones. -/
theorem lineStarts_nextLine (p : Place) : lineStarts p.nextLine <:+ lineStarts p := by
  by_cases hp : p.rest = []
  · have hle := p.reaches_nextLine.length_le
    rw [lineStarts_of_rest_nil (List.length_eq_zero_iff.1 (by simpa [hp] using hle))]
    exact List.nil_suffix
  · rw [lineStarts.eq_def p, dif_neg hp]
    exact List.suffix_cons _ _

/-- The lines after a later line are lines after an earlier one. -/
theorem lineStarts_suffix {p r : Place} (hr : p.Reaches r) :
    lineStarts r.nextLine <:+ lineStarts p.nextLine := by
  fun_induction lineStarts p with
  | case1 p hp =>
    have hle := (hr.trans r.reaches_nextLine).length_le
    rw [lineStarts_of_rest_nil (List.length_eq_zero_iff.1 (by simpa [hp] using hle))]
    exact List.nil_suffix
  | case2 p hp ih =>
    rcases hr.onLine_or with hline | hlater
    · exact hline.2 ▸ List.suffix_rfl
    · exact (ih hlater).trans (lineStarts_nextLine _)

/-- A line starts before the next line of any place, or it is one of the lines from there. -/
theorem mem_lineStarts_nextLine {p q r : Place} (h : q ∈ lineStarts p) (hr : p.Reaches r) :
    r.nextLine.rest.length < q.rest.length ∨ q ∈ lineStarts r.nextLine := by
  fun_induction lineStarts p with
  | case1 => simp at h
  | case2 p hp ih =>
    rcases List.mem_cons.1 h with rfl | h
    · refine .inl ?_
      by_cases hrest : r.rest = []
      · have hle := r.reaches_nextLine.length_le
        have hpos := List.length_pos_iff.2 hp
        rw [hrest, List.length_nil] at hle
        omega
      · exact Nat.lt_of_lt_of_le (Place.nextLine_lt hrest) hr.length_le
    · rcases hr.onLine_or with hline | hlater
      · exact .inr (hline.2 ▸ h)
      · exact ih h hlater

/-- No line opens before the place it is looked for from. -/
theorem openingLinesFrom_start {p : Place} {lines : List OpeningLine}
    (h : openingLinesFrom p = .ok lines) {l : OpeningLine} (hl : l ∈ lines) :
    l.start.rest.length ≤ p.rest.length := by
  fun_induction openingLinesFrom p generalizing lines with
  | case1 =>
    obtain rfl := Except.ok.inj h
    simp at hl
  | case2 p _ _ ih => exact Nat.le_trans (ih h hl) p.reaches_nextLine.length_le
  | case3 => simp at h
  | case4 p _ _ content next hc ih =>
    obtain ⟨more, hmore, rfl⟩ := map_eq_ok_iff.1 h
    rcases List.mem_cons.1 hl with rfl | hl
    · exact Nat.le_refl _
    · exact Nat.le_trans (ih hmore hl)
        (Nat.le_trans (lineContent_reaches hc).1.length_le (p.length_drop_le _))

/-- Opening lines are found in the order of the text. -/
theorem openingLinesFrom_sublist {p : Place} {lines : List OpeningLine}
    (h : openingLinesFrom p = .ok lines) :
    (lines.map OpeningLine.start).Sublist (lineStarts p) := by
  fun_induction openingLinesFrom p generalizing lines with
  | case1 =>
    obtain rfl := Except.ok.inj h
    exact List.nil_sublist _
  | case2 p hp _ ih =>
    rw [lineStarts, dif_neg hp]
    exact (ih h).trans (List.sublist_cons_self _ _)
  | case3 => simp at h
  | case4 p hp _ content next hc ih =>
    obtain ⟨more, hmore, rfl⟩ := map_eq_ok_iff.1 h
    obtain ⟨r, hr, rfl, -⟩ := lineContent_ends hc
    have hline : p.OnLine (p.drop p.indent) := p.onLine_skip rfl
    rw [lineStarts, dif_neg hp, ← hline.2]
    exact ((ih hmore).trans (lineStarts_suffix hr).sublist).cons_cons p

/-- A comment, a text block or an attribute list of the line goes on in the line that
    starts at `q`. -/
def OpeningLine.Swallows (l : OpeningLine) (q : Place) : Prop :=
  (∃ t ∈ l.content, GoesOn t) ∧
    q.rest.length < l.start.rest.length ∧ l.next.rest.length < q.rest.length

/-- A line is the first one, goes with its content, or comes after that. -/
theorem mem_lineStarts_next {p q next : Place} {content : List Token}
    (hc : lineContent p.indent (p.drop p.indent) = .ok (content, next)) (hq : q ∈ lineStarts p) :
    q = p ∨ OpeningLine.Swallows ⟨p, content, next⟩ q ∨ q ∈ lineStarts next := by
  have hstart : p.OnLine (p.drop p.indent) := p.onLine_skip rfl
  obtain ⟨r, hr, rfl, hgoes⟩ := lineContent_ends hc
  rcases mem_lineStarts_nextLine hq (hstart.1.trans hr) with hbefore | hafter
  · by_cases hp : p.rest = []
    · simp [lineStarts_of_rest_nil hp] at hq
    · rw [lineStarts, dif_neg hp] at hq
      rcases List.mem_cons.1 hq with rfl | hnext
      · exact .inl rfl
      · have hle := length_le_of_mem_lineStarts hnext
        refine .inr (.inl ⟨?_, Nat.lt_of_le_of_lt hle (Place.nextLine_lt hp), hbefore⟩)
        rcases hgoes with hk | hline
        · exact hk
        · rw [hline.2, hstart.2] at hbefore
          omega
  · exact .inr (.inr hafter)

/-- A line is an opening line unless it is blank or swallowed by one. -/
theorem openingLinesFrom_spec {p q : Place} {lines : List OpeningLine}
    (h : openingLinesFrom p = .ok lines) (hq : q ∈ lineStarts p) :
    (∃ l ∈ lines, l.start = q) ↔
      isBlankText q.line = false ∧ ∀ l ∈ lines, ¬ l.Swallows q := by
  fun_induction openingLinesFrom p generalizing lines with
  | case1 p hp =>
    rw [lineStarts, dif_pos hp] at hq
    simp at hq
  | case2 p hp hb ih =>
    rw [lineStarts, dif_neg hp] at hq
    rcases List.mem_cons.1 hq with rfl | hq
    · -- All opening lines start after the blank line.
      refine ⟨fun ⟨l, hl, hstart⟩ => ?_, fun ⟨hblank, _⟩ => by simp [hb] at hblank⟩
      have := openingLinesFrom_start h hl
      have := Place.nextLine_lt hp
      rw [hstart] at *
      omega
    · exact ih h hq
  | case3 => simp at h
  | case4 p hp hb content next hc ih =>
    obtain ⟨more, hmore, rfl⟩ := map_eq_ok_iff.1 h
    have hlt : next.rest.length < p.rest.length :=
      Nat.lt_of_lt_of_le (lineContent_reaches hc).2 (p.length_drop_le _)
    rcases mem_lineStarts_next hc hq with rfl | hswallow | hafter
    · -- No line swallows the place it starts at, or one before.
      refine ⟨fun _ => ⟨by simpa using hb, fun l hl hs => ?_⟩,
        fun _ => ⟨_, List.mem_cons_self, rfl⟩⟩
      rcases List.mem_cons.1 hl with rfl | hl
      · exact Nat.lt_irrefl _ hs.2.1
      · have := openingLinesFrom_start hmore hl
        have := hs.2.1
        omega
    · -- The content of the first line goes on at `q`.
      refine ⟨fun ⟨l, hl, hlq⟩ => ?_, fun h => absurd hswallow (h.2 _ List.mem_cons_self)⟩
      have hbefore : next.rest.length < q.rest.length := hswallow.2.2
      rcases List.mem_cons.1 hl with rfl | hl
      · exact absurd (hlq ▸ hswallow.2.1) (Nat.lt_irrefl _)
      · have := openingLinesFrom_start hmore hl
        rw [hlq] at this
        omega
    · -- What comes after the first line does not depend on it.
      have hafterLe := length_le_of_mem_lineStarts hafter
      have hne : p ≠ q := by
        rintro rfl
        omega
      have hno : ¬ OpeningLine.Swallows ⟨p, content, next⟩ q := fun hs =>
        Nat.not_lt_of_le hafterLe hs.2.2
      simpa [hne, hno] using ih hmore hafter

/-- Of the lines of a text, those are opening lines that are neither blank nor swallowed by
    one. -/
theorem openingLines_spec {text : String} {lines : List OpeningLine}
    (h : openingLines text = .ok lines) {q : Place} (hq : q ∈ lineStarts (.ofText text)) :
    (∃ l ∈ lines, l.start = q) ↔
      isBlankText q.line = false ∧ ∀ l ∈ lines, ¬ l.Swallows q :=
  openingLinesFrom_spec h hq

end SlotMarkup
