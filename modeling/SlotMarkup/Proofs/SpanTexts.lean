import SlotMarkup.Proofs.ReadingOrder
import SlotMarkup.Proofs.SpanCover

/-!
# The texts of spans

A token shows the text of its span: a name is that text, a shorthand has a sigil before its
name, and a raw value is at the end of its attribute (`Lexeme.Shows`). A text is all of its
span, unless it is a piped line, which has a bar before the text. That a token is such a
line is seen from those before it, as for the order of reading (`ownLine`).

Readers are followed from place to place and from token to token: the tokens they find lie
one behind the other between two places (`Laid`).

* `scanLines_laid`: so do the tokens of a text.
-/

namespace SlotMarkup

/-! ## Tokens one behind the other -/

/-- A piped line without its bar and one space after it. -/
def withoutBar : List Char → List Char
  | '|' :: ' ' :: cs => cs
  | '|' :: cs => cs
  | cs => cs

/-- How a lexeme shows the text of its span, behind tokens of some kinds, the last one
    first. -/
def Lexeme.Shows (past : List Kind) (s : List Char) : Lexeme → Prop
  | tag name => s = name.toList
  | idShorthand name => s = '#' :: name.toList
  | classShorthand name => s = '.' :: name.toList
  | attr _ (.raw value) => value.toList <:+ s
  | text value => value.toList = if ownLine past then withoutBar s else s
  | _ => True

/-- A text is the end of its span. -/
theorem Lexeme.Shows.suffix {past : List Kind} {s : List Char} {value : String}
    (h : (Lexeme.text value).Shows past s) : value.toList <:+ s := by
  change value.toList = _ at h
  have hbar : withoutBar s <:+ s := by
    rw [withoutBar.eq_def]
    split
    · exact (List.suffix_cons _ _).trans (List.suffix_cons _ _)
    · exact List.suffix_cons _ _
    · exact List.suffix_rfl
  rw [h]
  split
  · exact hbar
  · exact List.suffix_rfl

/-- The tokens lie one behind the other between two places, behind tokens of the kinds
    `past`, and leave the kinds `past'` behind them. Each of them shows the text of its
    span. -/
inductive Laid : List Kind → Place → List Token → List Kind → Place → Prop
  | nil {past p q} (h : p.Reaches q) : Laid past p [] past q
  | cons {past p a b ts past' q l} (ha : p.Reaches a) (hb : a.Reaches b)
    (hl : l.Shows past (a.upTo b)) (h : Laid (l.kind :: past) b ts past' q) :
    Laid past p (.read l a b :: ts) past' q

section Laid

variable {past past' past₁ : List Kind} {p q r a b : Place} {ts us : List Token} {l : Lexeme}

/-- One token is laid where it was read, if it shows the text there. -/
theorem laid_read (past : List Kind) (l : Lexeme) (hb : a.Reaches b)
    (hl : l.Shows past (a.upTo b)) : Laid past a [.read l a b] (l.kind :: past) b :=
  .cons (.refl a) hb hl (.nil (.refl b))

/-- A token without a text of its own. -/
theorem laid_point (past : List Kind) (l : Lexeme) (hl : l.Shows past []) (p : Place) :
    Laid past p [⟨l, p.point⟩] (l.kind :: past) p :=
  laid_read past l (.refl p) (by rwa [Place.upTo, Nat.sub_self, List.take_zero])

/-- Tokens laid up to a place and from there on are laid together. -/
theorem Laid.append (h : Laid past p ts past₁ q) (k : Laid past₁ q us past' r) :
    Laid past p (ts ++ us) past' r := by
  induction h with
  | nil h =>
    cases k with
    | nil k => exact .nil (h.trans k)
    | cons ha hb hl k => exact .cons (h.trans ha) hb hl k
  | cons ha hb hl _ ih => exact .cons ha hb hl (ih k)

/-- Tokens that are laid from a place on are laid from any earlier one on. -/
theorem Laid.from_reached (h : Laid past q ts past' r) (hq : p.Reaches q) :
    Laid past p ts past' r := (Laid.nil hq).append h

/-- Tokens that are laid up to a place are laid up to any later one. -/
theorem Laid.up_to (h : Laid past p ts past' q) (hr : q.Reaches r) : Laid past p ts past' r :=
  List.append_nil ts ▸ h.append (.nil hr)

end Laid

/-! ## Heads -/

/-- A shorthand shows its sigil and its name. -/
theorem shorthand?_laid {p q : Place} {t : Token} (h : shorthand? p = some (t, q))
    (past : List Kind) : Laid past p [t] (t.kind :: past) q ∧ t.kind ∈ headEnds ∧
      inTextBlock (t.kind :: past) = inTextBlock past := by
  obtain ⟨l, rfl, hends⟩ := shorthand?_read h
  obtain ⟨sigil, f, cs, hf, hcs, -, hl, hq⟩ := shorthand?_eq_some h
  have hspan : p.upTo q = sigil :: cs.takeWhile isNamePart := by
    refine Place.upTo_eq_of_append ?_
    rw [hcs, hq, List.cons_append, List.takeWhile_append_dropWhile]
  refine ⟨laid_read past l (shorthand?_reaches h).1 ?_, hends, inTextBlock_cons ?_ ?_⟩
  · change l = _ at hl
    rw [sigil?.eq_def] at hf
    rw [hspan, hl]
    split at hf
    · obtain rfl := Option.some.inj hf
      simp [Lexeme.Shows]
    · obtain rfl := Option.some.inj hf
      simp [Lexeme.Shows]
    · simp at hf
  all_goals
    change l.kind ∈ headEnds at hends
    intro hk
    change l.kind = _ at hk
    rw [hk] at hends
    simp [headEnds] at hends

/-- A raw value is the text it is read from. -/
theorem attributeValue_upTo {p q : Place} {value : List Char}
    (h : attributeValue p = .ok (value, q)) : value = p.upTo q := by
  rw [attributeValue] at h
  split at h
  · simp at h
  · split at h
    · simp at h
    · obtain ⟨rfl, rfl⟩ := Prod.mk.inj (Except.ok.inj h)
      rfl

/-- A raw value is the end of its attribute. -/
theorem readAttribute_laid {p q : Place} {t : Token} (h : readAttribute p = .ok (t, q))
    (past : List Kind) : Laid past p [t] (.attr :: past) q := by
  have hreach := (readAttribute_reaches h).1
  rw [readAttribute] at h
  split at h
  · simp at h
  · rename_i name r hname
    split at h
    · obtain ⟨rfl, rfl⟩ := Prod.mk.inj (Except.ok.inj h)
      exact laid_read past _ hreach trivial
    · rename_i s hs
      obtain ⟨⟨value, u⟩, hv, hu⟩ := map_eq_ok_iff.1 h
      obtain ⟨rfl, rfl⟩ := Prod.mk.inj hu
      refine laid_read past _ hreach ?_
      have hstart : p.Reaches (s.skip isBlank) := (attributeName_reaches hname).1.trans
        ((r.reaches_skip isIndent).trans ((reaches_equalsEnd? hs).trans (s.reaches_skip isBlank)))
      refine ⟨p.upTo (s.skip isBlank), ?_⟩
      rw [String.toList_ofList, attributeValue_upTo hv,
        hstart.upTo_append (reaches_attributeValue hv)]

/-- Attributes are laid one behind the other, and the parenthesis that closes the list behind
    them. -/
theorem attributesFrom_laid {start p q : Place} {ts : List Token}
    (h : attributesFrom start p = .ok (ts, q)) (past : List Kind) :
    ∃ past', Laid past p ts past' q ∧ behindHead past' = true ∧
      inTextBlock past' = inTextBlock past := by
  fun_induction attributesFrom start p generalizing past ts with
  | case1 => simp at h
  | case2 p r =>
    obtain ⟨rfl, rfl⟩ := Prod.mk.inj (Except.ok.inj h)
    have hclose := laid_read past .closeAttributes (r.reaches_drop 1) trivial
    exact ⟨.closeAttributes :: past, hclose.from_reached (p.reaches_skip _), rfl, rfl⟩
  | case3 => simp at h
  | case4 p r t s hr =>
    rename_i ih
    obtain ⟨us, hus, rfl⟩ := Scan.after_eq_ok_iff.1 h
    obtain ⟨past', hlaid, hhead, hblock⟩ := ih hus (.attr :: past)
    exact ⟨past', ((readAttribute_laid hr past).append hlaid).from_reached (p.reaches_skip _),
      hhead, hblock⟩

/-- Shorthands and lists are laid one behind the other. -/
theorem tagParts_laid {p q : Place} {ts : List Token} (h : tagParts p = .ok (ts, q))
    (past : List Kind) (hpast : behindHead past = true) : ∃ past', Laid past p ts past' q ∧
      behindHead past' = true ∧ inTextBlock past' = inTextBlock past := by
  fun_induction tagParts p generalizing ts past with
  | case1 p t r hs ih =>
    obtain ⟨us, hus, rfl⟩ := Scan.after_eq_ok_iff.1 h
    obtain ⟨ht, hends, hsame⟩ := shorthand?_laid hs past
    obtain ⟨past', hlaid, hhead, hblock⟩ := ih hus (t.kind :: past)
      (by simpa [behindHead] using hends)
    exact ⟨past', ht.append hlaid, hhead, hblock.trans hsame⟩
  | case2 => simp at h
  | case3 p _ hp us r hl ih =>
    obtain ⟨vs, hvs, rfl⟩ := Scan.after_eq_ok_iff.1 h
    obtain ⟨as, has, rfl⟩ := Scan.after_eq_ok_iff.1 hl
    obtain ⟨past₁, hlist, hhead₁, hblock₁⟩ := attributesFrom_laid has (.openAttributes :: past)
    obtain ⟨past', hlaid, hhead, hblock⟩ := ih hvs past₁ hhead₁
    have hopen := laid_read past .openAttributes (p.reaches_drop 1) trivial
    exact ⟨past', (hopen.append hlist).append hlaid, hhead, hblock.trans hblock₁⟩
  | case4 p =>
    obtain ⟨rfl, rfl⟩ := Prod.mk.inj (Except.ok.inj h)
    exact ⟨past, .nil (.refl p), hpast, rfl⟩

/-- The name of a tag is the text it is read from. -/
theorem upTo_tagName? {p : Place} {name : List Char} (h : tagName? p.rest = some name) :
    p.upTo (p.drop name.length) = name := by
  obtain ⟨ds, hds, -⟩ := wordBreak_tagName? h
  rw [Place.upTo_drop, hds, List.take_left]

/-- A head shows its name, or a shorthand, and the parts behind it. -/
theorem tagHead_laid {p q : Place} {ts : List Token} (h : tagHead p = .ok (ts, q))
    (past : List Kind) : ∃ past', Laid past p ts past' q ∧ behindHead past' = true ∧
      inTextBlock past' = inTextBlock past := by
  rw [tagHead] at h
  split at h
  · rename_i name hname
    dsimp only at h
    split at h
    · simp at h
    · obtain ⟨us, hus, rfl⟩ := Scan.after_eq_ok_iff.1 h
      obtain ⟨past', hlaid, hhead, hblock⟩ := tagParts_laid hus (.tag :: past) rfl
      have htag : Laid past p [.read (.tag (String.ofList name)) p (p.drop name.length)]
          (.tag :: past) (p.drop name.length) := by
        refine laid_read past _ (p.reaches_drop _) ?_
        rw [upTo_tagName? hname, Lexeme.Shows, String.toList_ofList]
      exact ⟨past', htag.append hlaid, hhead, hblock⟩
  · split at h
    · rename_i t r hs
      obtain ⟨us, hus, rfl⟩ := Scan.after_eq_ok_iff.1 h
      obtain ⟨ht, hends, hsame⟩ := shorthand?_laid hs past
      obtain ⟨past', hlaid, hhead, hblock⟩ := tagParts_laid hus (t.kind :: past)
        (by simpa [behindHead] using hends)
      exact ⟨past', ht.append hlaid, hhead, hblock.trans hsame⟩
    · simp at h

/-! ## Nested lines -/

/-- Stretches of a text from `p` on, one behind the other. -/
def InOrder : Place → List Stretch → Prop
  | _, [] => True
  | p, s :: more => p.Reaches s.start ∧ s.start.Reaches s.stop ∧ InOrder s.stop more

/-- The end of the last of some stretches, or `p`. -/
def stopOf (p : Place) (lines : List Stretch) : Place := ((lines.getLast?).map Stretch.stop).getD p

theorem stopOf_cons (p : Place) (s : Stretch) (lines : List Stretch) :
    stopOf p (s :: lines) = stopOf s.stop lines := by
  rw [stopOf, stopOf, List.getLast?_cons]
  cases lines.getLast? <;> rfl

/-- Behind lines in order stands what was behind the place before them. -/
theorem InOrder.reaches_stopOf {p : Place} {lines : List Stretch} (h : InOrder p lines) :
    p.Reaches (stopOf p lines) := by
  induction lines generalizing p with
  | nil => exact .refl p
  | cons s lines ih => exact stopOf_cons p s lines ▸ h.1.trans (h.2.1.trans (ih h.2.2))

/-- Lines of which each starts behind the ones before are in order. -/
theorem inOrder_of_pairwise {p : Place} {lines : List Stretch}
    (h : ∀ s ∈ lines, p.Reaches s.start ∧ s.start.Reaches s.stop)
    (horder : lines.Pairwise fun s u => s.stop.Reaches u.start) : InOrder p lines := by
  induction lines generalizing p with
  | nil => trivial
  | cons s lines ih =>
    rw [List.pairwise_cons] at horder
    obtain ⟨hstart, hstop⟩ := h s List.mem_cons_self
    exact ⟨hstart, hstop, ih (fun u hu => ⟨horder.1 u hu, (h u (List.mem_cons_of_mem s hu)).2⟩)
      horder.2⟩

/-- What follows a nested run is behind its lines. -/
theorem nestedRun_reaches (base : Nat) (p : Place) :
    ∀ q ∈ (nestedRun base p).1, q.nextLine.Reaches (nestedRun base p).2 := by
  fun_induction nestedRun base p with
  | case1 => simp
  | case2 p _ _ lines next hrun ih =>
    rw [hrun] at ih
    intro q hq
    rcases List.mem_cons.1 hq with rfl | hq
    · have hreach := reaches_nestedRun base q.nextLine
      rwa [hrun] at hreach
    · exact ih q hq
  | case3 => simp

/-- Nested lines are collected in the order of the text, and the next line comes behind them. -/
theorem nestedLines_inOrder {base : Nat} {p next : Place} {lines : List Stretch}
    (h : nestedLines base p = (lines, next)) :
    InOrder p lines ∧ ∀ a, a.Reaches p → (stopOf a lines).Reaches next := by
  have hnext : p.Reaches next := by
    have hreach := reaches_nestedLines base p
    rwa [h] at hreach
  obtain ⟨rfl, kept, width, hinit, rfl, hwidth, -⟩ := nestedLines_eq h
  obtain ⟨hstart, horder⟩ := nestedRun_order base p
  have hwithin (q : Place) (hq : q ∈ kept) := stripLine_within (hwidth q hq)
  refine ⟨inOrder_of_pairwise (fun s hs => ?_) (List.pairwise_map.2 ?_), fun a ha => ?_⟩
  · obtain ⟨q, hq, rfl⟩ := List.mem_map.1 hs
    exact ⟨(hstart q (hinit.subset hq)).trans (hwithin q hq).1, (hwithin q hq).2.1⟩
  · exact (horder.sublist hinit.sublist).imp_of_mem fun hq hr hqr =>
      (hwithin _ hq).2.2.trans (hqr.trans (hwithin _ hr).1)
  · rw [stopOf, List.getLast?_map]
    cases hlast : kept.getLast? with
    | none => exact ha.trans hnext
    | some q =>
      have hq : q ∈ kept := List.mem_of_getLast? hlast
      exact (hwithin q hq).2.2.trans (nestedRun_reaches base p q (hinit.subset hq))

/-! ## Bodies -/

theorem ownLine_of_inTextBlock {past : List Kind} (h : inTextBlock past = true) :
    ownLine past = false := by simp [ownLine, h]

/-- The line of a text block shows what is left of it. -/
theorem textLineTokens_laid (past : List Kind) (hpast : inTextBlock past = true) {s : Stretch}
    (hs : s.start.Reaches s.stop) : ∃ past', Laid past s.start (textLineTokens s) past' s.stop ∧
      inTextBlock past' = true := by
  rw [textLineTokens]
  split
  · exact ⟨past, .nil hs, hpast⟩
  · refine ⟨.text :: past, laid_read past _ hs ?_, hpast⟩
    simp [Lexeme.Shows, ownLine_of_inTextBlock hpast, Stretch.chars]

/-- The lines of a text block are laid one behind the other, with a break before each. -/
theorem textLinesTokens_laid {past : List Kind} (hpast : inTextBlock past = true) {p : Place}
    {lines : List Stretch} (h : InOrder p lines) : ∃ past',
      Laid past p (textLinesTokens lines) past' (stopOf p lines) ∧ inTextBlock past' = true := by
  induction lines generalizing past p with
  | nil => exact ⟨past, .nil (.refl p), hpast⟩
  | cons s lines ih =>
    -- The line break is a point at the start of its line.
    obtain ⟨hstart, hstop, hmore⟩ := h
    obtain ⟨past₁, hline, hpast₁⟩ := textLineTokens_laid (.newline :: past) hpast hstop
    obtain ⟨past', hlines, hpast'⟩ := ih hpast₁ hmore
    rw [stopOf_cons]
    have hbreak := (laid_point past .newline trivial s.start).from_reached hstart
    exact ⟨past', hbreak.append (hline.append hlines), hpast'⟩

/-- The lines of a text block lie between its dot and what comes after it. -/
theorem textBlock_laid {indent : Nat} {p q : Place} {ts : List Token}
    (h : textBlock indent p = (ts, q)) (hp : (p.drop 1).Reaches p.nextLine) (past : List Kind) :
    ∃ past', Laid past p ts past' q ∧ inTextBlock past' = false := by
  rw [textBlock] at h
  cases hlines : nestedLines indent p.nextLine with
  | mk lines next =>
    rw [hlines] at h
    obtain ⟨rfl, rfl⟩ := Prod.mk.inj h
    obtain ⟨horder, hnext⟩ := nestedLines_inOrder hlines
    have hopen := laid_read past .openTextBlock (p.reaches_drop 1) trivial
    cases lines with
    | nil =>
      have hclose := laid_point (.openTextBlock :: past) .closeTextBlock trivial (p.drop 1)
      exact ⟨.closeTextBlock :: .openTextBlock :: past,
        (hopen.append hclose).up_to (hnext _ hp), rfl⟩
    | cons s lines =>
      obtain ⟨hstart, hstop, hmore⟩ := horder
      obtain ⟨past₂, hline, hpast₂⟩ := textLineTokens_laid (.openTextBlock :: past) rfl hstop
      obtain ⟨past₁, hlines, -⟩ := textLinesTokens_laid hpast₂ hmore
      have hcontent := (hline.append hlines).from_reached (hp.trans hstart)
      have hclose := laid_point past₁ .closeTextBlock trivial (stopOf s.stop lines)
      rw [← stopOf_cons (p.drop 1)] at hclose hcontent
      exact ⟨.closeTextBlock :: past₁,
        (hopen.append (hcontent.append hclose)).up_to (hnext _ hp), rfl⟩

/-- What follows a head is laid behind it. -/
theorem tagBody_laid {indent : Nat} {p q : Place} {ts : List Token}
    (h : tagBody indent p = .ok (ts, q)) {past : List Kind} (hhead : behindHead past = true)
    (hblock : inTextBlock past = false) :
    ∃ past', Laid past p ts past' q ∧ inTextBlock past' = false := by
  have hblank : ∃ past', Laid past p [] past' p.nextLine ∧ inTextBlock past' = false :=
    ⟨past, .nil p.reaches_nextLine, hblock⟩
  rw [tagBody] at h
  split at h
  · obtain ⟨rfl, rfl⟩ := Prod.mk.inj (Except.ok.inj h)
    exact hblank
  · split at h
    · rename_i hp
      split at h
      · have hnext : (p.drop 1).Reaches p.nextLine :=
          Place.nextLine_drop_one hp (by decide) ▸ (p.drop 1).reaches_nextLine
        exact textBlock_laid (Except.ok.inj h) hnext past
      · simp at h
    · rename_i hp
      dsimp only at h
      split at h
      · obtain ⟨rfl, rfl⟩ := Prod.mk.inj (Except.ok.inj h)
        exact hblank
      · obtain ⟨rfl, rfl⟩ := Prod.mk.inj (Except.ok.inj h)
        have hnext : (p.drop 1).lineEnd.Reaches p.nextLine :=
          Place.nextLine_drop_one hp (by decide) ▸ (p.drop 1).lineEnd_reaches_nextLine
        have htext := laid_read past (.text (String.ofList (p.drop 1).line))
          (p.drop 1).reaches_lineEnd (by
            simp [Lexeme.Shows, ownLine_of_behindHead hhead, Place.upTo_lineEnd])
        exact ⟨.text :: past, (htext.from_reached (p.reaches_drop 1)).up_to hnext, hblock⟩
    · split at h
      · obtain ⟨rfl, rfl⟩ := Prod.mk.inj (Except.ok.inj h)
        exact hblank
      · simp at h
    all_goals simp at h

/-! ## Lines -/

/-- The tags of a line are laid one behind the other, with their colons between. -/
theorem tagLine_laid {indent : Nat} {p q : Place} {ts : List Token}
    (h : tagLine indent p = .ok (ts, q)) (past : List Kind) (hblock : inTextBlock past = false) :
    ∃ past', Laid past p ts past' q ∧ inTextBlock past' = false := by
  fun_induction tagLine indent p generalizing ts past with
  | case1 => simp at h
  | case2 => simp at h
  | case3 p head r hp =>
    rename_i ih
    obtain ⟨us, hus, rfl⟩ := Scan.after_eq_ok_iff.1 h
    obtain ⟨past₁, hlaid, -, hblock₁⟩ := tagHead_laid hp past
    obtain ⟨past', hmore, hblock'⟩ := ih hus (.colon :: past₁) (hblock₁.trans hblock)
    have hcolon := laid_read past₁ .colon (r.reaches_drop 1) trivial
    exact ⟨past', (hlaid.append hcolon).append (hmore.from_reached (Place.reaches_skip _ _)),
      hblock'⟩
  | case4 p head r hp =>
    obtain ⟨us, hus, rfl⟩ := Scan.after_eq_ok_iff.1 h
    obtain ⟨past₁, hlaid, hhead, hblock₁⟩ := tagHead_laid hp past
    obtain ⟨past', hbody, hblock'⟩ := tagBody_laid hus hhead (hblock₁.trans hblock)
    exact ⟨past', hlaid.append hbody, hblock'⟩

/-- A piped line shows its bar and its text. -/
theorem pipedLine_laid {p : Place} {cs : List Char} (hp : p.rest = '|' :: cs) {past : List Kind}
    (hown : ownLine past = true) :
    Laid past p (pipedLine p).1 (.text :: past) (pipedLine p).2 := by
  refine (laid_read past _ p.reaches_lineEnd ?_).up_to p.lineEnd_reaches_nextLine
  rw [Lexeme.Shows, if_pos hown, Place.upTo_lineEnd, Place.line_cons hp (by decide) (by decide),
    String.toList_ofList]
  split <;> simp_all [withoutBar]

/-- A line of literal markup shows itself. -/
theorem literalLine_laid {p : Place} {cs : List Char} (hp : p.rest = '<' :: cs) {past : List Kind}
    (hown : ownLine past = true) :
    Laid past p (literalLine p).1 (.text :: past) (literalLine p).2 := by
  refine (laid_read past _ p.reaches_lineEnd ?_).up_to p.lineEnd_reaches_nextLine
  rw [Lexeme.Shows, if_pos hown, Place.upTo_lineEnd, Place.line_cons hp (by decide) (by decide),
    String.toList_ofList]
  rfl

/-- A comment shows its slashes. -/
theorem commentLines_laid (indent : Nat) (p : Place) (past : List Kind) :
    Laid past p (commentLines indent p).1 (.comment :: past) (commentLines indent p).2 := by
  rw [commentLines]
  cases hlines : nestedLines indent p.nextLine with
  | mk lines next =>
    obtain ⟨horder, hnext⟩ := nestedLines_inOrder hlines
    have hstop : p.Reaches (stopOf p.lineEnd lines) := by
      cases lines with
      | nil => exact p.reaches_lineEnd
      | cons s lines =>
        rw [stopOf_cons]
        exact p.reaches_nextLine.trans
          (horder.1.trans (horder.2.1.trans horder.2.2.reaches_stopOf))
    exact (laid_read past (.comment _ _) hstop trivial).up_to
      (hnext _ p.lineEnd_reaches_nextLine)

/-- The tokens of the content of a line, where a text would be a line of its own. -/
theorem lineContent_laid {indent : Nat} {p q : Place} {ts : List Token}
    (h : lineContent indent p = .ok (ts, q)) {past : List Kind} (hown : ownLine past = true) :
    ∃ past', Laid past p ts past' q ∧ inTextBlock past' = false := by
  have hblock : inTextBlock past = false := by
    rw [ownLine, Bool.and_eq_true, Bool.not_eq_true', Bool.not_eq_true'] at hown
    exact hown.2
  rw [lineContent] at h
  split at h
  · obtain ⟨rfl, rfl⟩ := Prod.mk.inj (Except.ok.inj h)
    exact ⟨_, commentLines_laid indent p past, hblock⟩
  · simp at h
  · rename_i hp
    obtain ⟨rfl, rfl⟩ := Prod.mk.inj (Except.ok.inj h)
    exact ⟨_, pipedLine_laid hp hown, hblock⟩
  · rename_i hp
    obtain ⟨rfl, rfl⟩ := Prod.mk.inj (Except.ok.inj h)
    exact ⟨_, literalLine_laid hp hown, hblock⟩
  · simp at h
  · simp at h
  · simp at h
  · exact tagLine_laid h past hblock

/-! ## Texts -/

/-- The tokens that change the level stand at a point. None of them is a part of a head. -/
theorem levels_laid {ls : List Lexeme} (h : ∀ l ∈ ls, l = .indent ∨ l = .newline ∨ l = .outdent)
    (past : List Kind) (p : Place) : ∃ past', Laid past p (ls.map (⟨·, p.point⟩)) past' p ∧
      inTextBlock past' = inTextBlock past ∧
      (behindHead past' = true → ls = [] ∧ behindHead past = true) := by
  induction ls generalizing past with
  | nil => exact ⟨past, .nil (.refl p), rfl, fun hb => ⟨rfl, hb⟩⟩
  | cons l ls ih =>
    obtain ⟨past', hlaid, hblock, hhead⟩ :=
      ih (fun k hk => h k (List.mem_cons_of_mem l hk)) (l.kind :: past)
    have hl := h l List.mem_cons_self
    have hpoint := laid_point past l (by rcases hl with rfl | rfl | rfl <;> trivial) p
    refine ⟨past', hpoint.append hlaid, hblock.trans ?_, fun hb => ?_⟩
    · rcases hl with rfl | rfl | rfl <;> rfl
    · have hbehind := (hhead hb).2
      rcases hl with rfl | rfl | rfl <;> simp [behindHead, headEnds, Lexeme.kind] at hbehind

/-- Behind the tokens a line is opened with, a text is a line of its own. -/
theorem opening_laid {levels inner : List Nat} {first : Bool} {indent : Nat} {ls : List Lexeme}
    (h : openLine levels first indent = some (ls, inner)) {past : List Kind}
    (hblock : inTextBlock past = false) (hfirst : first = true → behindHead past = false)
    (p : Place) : ∃ past', Laid past p (ls.map (⟨·, p.point⟩)) past' p ∧ ownLine past' = true := by
  obtain ⟨past', hlaid, hblock', hhead⟩ := levels_laid (fun _ => mem_opening h) past p
  have hbehind : behindHead past' = false := Bool.eq_false_iff.2 fun hb => by
    obtain ⟨rfl, hpast⟩ := hhead hb
    rcases openLine_cases h with ⟨-, hls, -⟩ | ⟨-, hls, -⟩ | ⟨n, hlt, -, hls, rfl, hindent⟩
    · simp at hls
    · cases first with
      | true => simp [hfirst rfl] at hpast
      | false => simp at hls
    · -- No line was closed, so the line would be indented as the one before.
      obtain rfl : n = 0 := by simpa using hls.symm
      rw [List.drop_zero] at hindent
      omega
  exact ⟨past', hlaid, by rw [ownLine, hbehind, hblock', hblock]; rfl⟩

/-- What closes the levels at the end of a text is laid there. -/
theorem closing_laid (levels : List Nat) (past : List Kind) (p : Place) :
    ∃ past', Laid past p (closing levels p) past' p := by
  have hall : ∀ l ∈ levels.map (fun _ => Lexeme.outdent), l = .indent ∨ l = .newline ∨
      l = .outdent := by simp
  obtain ⟨past', hlaid, -, -⟩ := levels_laid hall past p
  rw [List.map_map] at hlaid
  exact ⟨_, hlaid.append (laid_point past' .eof trivial p)⟩

/-- The tokens of a text lie one behind the other, and show the texts of their spans. -/
theorem scanLines_laid {levels : List Nat} {first : Bool} {p : Place} {ts : List Token}
    (h : scanLines levels first p = .ok ts) {past : List Kind} (hblock : inTextBlock past = false)
    (hfirst : first = true → behindHead past = false) : ∃ past' q, Laid past p ts past' q := by
  fun_induction scanLines levels first p generalizing ts past with
  | case1 levels _ p =>
    obtain rfl := Except.ok.inj h
    obtain ⟨past', hlaid⟩ := closing_laid levels past p
    exact ⟨past', p, hlaid⟩
  | case2 levels first p _ _ ih =>
    obtain ⟨past', q, hlaid⟩ := ih h hblock hfirst
    exact ⟨past', q, hlaid.from_reached p.reaches_nextLine⟩
  | case3 => simp at h
  | case4 => simp at h
  | case5 => simp at h
  | case6 levels first p _ _ start _ opening inner hopen content next hc =>
    -- The tokens that open the line, those of its content, and those of the further lines.
    rename_i ih
    obtain ⟨more, hmore, rfl⟩ := map_eq_ok_iff.1 h
    obtain ⟨past₁, hopening, hown⟩ := opening_laid hopen hblock hfirst start
    obtain ⟨past₂, hcontent, hblock₂⟩ := lineContent_laid hc hown
    obtain ⟨past', q, hlaid⟩ := ih hmore hblock₂ (absurd · Bool.false_ne_true)
    exact ⟨past', q,
      (hopening.append (hcontent.append hlaid)).from_reached (p.reaches_drop p.indent)⟩

end SlotMarkup
