import SlotMarkup.Token.Document

/-!
# The spans of errors

What is wrong with a text is found between two places of it (`ScanError.FoundBehind`), whichever
reader finds it.

* `readAttribute_error`, `tagHead_error`, `lineContent_error`: attributes, heads and lines;
* `scanLines_error`: texts.
-/

namespace SlotMarkup

/-- What is wrong is found between two places behind `p`. -/
def ScanError.FoundBehind (e : ScanError) (p : Place) : Prop :=
  ∃ a b, p.Reaches a ∧ a.Reaches b ∧ e.span = a.spanTo b

variable {p q r : Place} {e : ScanError}

/-- An error between two places behind `r` is found behind `r`. -/
theorem ScanError.foundBehind_between (cause : Cause) (h : p.Reaches q) (hr : r.Reaches p) :
    (ScanError.between cause p q).FoundBehind r := ⟨p, q, hr, h, rfl⟩

/-- What is found behind a later place is found behind an earlier one. -/
theorem ScanError.FoundBehind.trans (h : e.FoundBehind q) (hq : p.Reaches q) : e.FoundBehind p := by
  obtain ⟨a, b, ha, hb, hspan⟩ := h
  exact ⟨a, b, hq.trans ha, hb, hspan⟩

/-! ## Attributes -/

/-- A string that is not closed is found from its quote on. -/
theorem stringEnd_error {quote : Char} (h : stringEnd quote p = .error e) : e.FoundBehind p := by
  rw [stringEnd] at h
  split at h
  · simp at h
  · obtain rfl := Except.error.inj h
    exact ScanError.foundBehind_between _ ⟨_, rfl⟩ (.refl p)

/-- All that can be wrong with a value is a string in it that is not closed, and that is found
    behind the start of the value. -/
theorem valueEnd_error {depth : Nat} (h : valueEnd depth p = .error e) : e.FoundBehind p := by
  fun_induction valueEnd depth p with
  | case1 => simp at h
  | case2 _ _ _ _ _ _ r hr ih => exact (ih h).trans (reaches_stringEnd hr)
  | case3 _ _ _ _ _ _ _ he => exact stringEnd_error (Except.error.inj h ▸ he)
  | case4 _ p _ _ _ _ _ ih => exact (ih h).trans (p.reaches_drop 1)
  | case5 => simp at h
  | case6 _ p _ _ _ _ _ _ _ ih => exact (ih h).trans (p.reaches_drop 1)
  | case7 => simp at h
  | case8 _ p _ _ _ _ _ _ _ ih => exact (ih h).trans (p.reaches_drop 1)

/-- An unexpected character is found at its own place. -/
theorem unexpected_foundBehind (p : Place) : (ScanError.unexpected p).FoundBehind p :=
  ScanError.foundBehind_between _ (p.reaches_drop 1) (.refl p)

/-- A name is wrong from its first character on, be it no name at all or a string that is not
    closed. -/
theorem attributeName_error (h : attributeName p = .error e) : e.FoundBehind p := by
  rw [attributeName] at h
  split at h
  · exact Except.error.inj h ▸ unexpected_foundBehind p
  · split at h
    · exact stringEnd_error (map_eq_error_iff.1 h)
    · split at h
      · exact Except.error.inj h ▸ unexpected_foundBehind p
      · simp at h

/-- A value is wrong, or missing, from its place on. -/
theorem attributeValue_error (h : attributeValue p = .error e) : e.FoundBehind p := by
  rw [attributeValue] at h
  split at h
  · rename_i he
    exact valueEnd_error (Except.error.inj h ▸ he)
  · split at h
    · exact Except.error.inj h ▸ ScanError.foundBehind_between _ (.refl p) (.refl p)
    · simp at h

/-- An attribute is wrong in its name or in its value, and so from its start on. -/
theorem readAttribute_error (h : readAttribute p = .error e) : e.FoundBehind p := by
  rw [readAttribute] at h
  split at h
  · rename_i he
    exact attributeName_error (Except.error.inj h ▸ he)
  · rename_i name q hname
    split at h
    · simp at h
    · rename_i r hr
      exact (attributeValue_error (map_eq_error_iff.1 h)).trans <|
        (attributeName_reaches hname).1.trans <| (q.reaches_skip isIndent).trans <|
          (reaches_equalsEnd? hr).trans (r.reaches_skip isBlank)

/-- A list that is not closed is found from where it was opened, and an attribute in it from where
    that starts: both are behind the parenthesis. -/
theorem attributesFrom_error {start : Place} (h : attributesFrom start p = .error e)
    (hp : start.Reaches p) : e.FoundBehind start := by
  fun_induction attributesFrom start p with
  | case1 p =>
    exact Except.error.inj h ▸
      ScanError.foundBehind_between _ (hp.trans (p.reaches_skip _)) (.refl start)
  | case2 => simp at h
  | case3 p =>
    -- An attribute that is wrong is told from where it starts, not from where the list does.
    rename_i he _ _
    have hfound := readAttribute_error (Except.error.inj h ▸ he)
    exact hfound.trans (hp.trans (p.reaches_skip _))
  | case4 p _ _ _ hr =>
    rename_i ih
    exact ih (map_eq_error_iff.1 h)
      (hp.trans ((p.reaches_skip _).trans (readAttribute_reaches hr).1))

/-- A list is wrong nowhere before its opening parenthesis. -/
theorem attributeList_error (h : attributeList p = .error e) : e.FoundBehind p :=
  attributesFrom_error (map_eq_error_iff.1 h) (p.reaches_drop 1)

/-! ## Heads -/

/-- Of shorthands and lists only a list can be wrong, and it is behind the first of them. -/
theorem tagParts_error (h : tagParts p = .error e) : e.FoundBehind p := by
  fun_induction tagParts p with
  | case1 _ _ _ hs ih => exact (ih (map_eq_error_iff.1 h)).trans (shorthand?_reaches hs).1
  | case2 _ _ _ _ he => exact attributeList_error (Except.error.inj h ▸ he)
  | case3 _ _ hp _ _ hl ih =>
    exact (ih (map_eq_error_iff.1 h)).trans
      (attributeList_reaches (fun h => by simp [h] at hp) hl).1
  | case4 => simp at h

/-- A head is wrong in its name or in one of its lists, and so from its start on. -/
theorem tagHead_error (h : tagHead p = .error e) : e.FoundBehind p := by
  rw [tagHead] at h
  split at h
  · dsimp only at h
    split at h
    · exact Except.error.inj h ▸ ScanError.foundBehind_between _ (p.reaches_drop _) (.refl p)
    · exact (tagParts_error (map_eq_error_iff.1 h)).trans (p.reaches_drop _)
  · split at h
    · rename_i hs
      exact (tagParts_error (map_eq_error_iff.1 h)).trans (shorthand?_reaches hs).1
    · exact Except.error.inj h ▸ ScanError.foundBehind_between _ (.refl p) (.refl p)

/-! ## Lines -/

/-- What follows a head is wrong nowhere before its own start. -/
theorem tagBody_error {indent : Nat} (h : tagBody indent p = .error e) : e.FoundBehind p := by
  have hbetween (cause : ScanError.Cause) {q : Place} (hq : p.Reaches q) :
      (ScanError.between cause p q).FoundBehind p := ScanError.foundBehind_between _ hq (.refl p)
  rw [tagBody] at h
  split at h
  · simp at h
  · split at h
    · split at h
      · simp at h
      · exact Except.error.inj h ▸ unexpected_foundBehind p
    · dsimp only at h
      split at h <;> simp at h
    · split at h
      · simp at h
      · exact Except.error.inj h ▸ (unexpected_foundBehind _).trans (p.reaches_drop 1)
    · exact Except.error.inj h ▸ hbetween _ (p.reaches_drop 1)
    · exact Except.error.inj h ▸ hbetween _ (p.reaches_drop 2)
    · exact Except.error.inj h ▸ hbetween _ p.reaches_lineEnd
    · exact Except.error.inj h ▸ unexpected_foundBehind p

/-- A line of tags is wrong in a head, behind a colon or behind the last head, and so from the
    first head on. -/
theorem tagLine_error {indent : Nat} (h : tagLine indent p = .error e) : e.FoundBehind p := by
  fun_induction tagLine indent p with
  | case1 _ _ he => exact tagHead_error (Except.error.inj h ▸ he)
  | case2 p head q hp _ r =>
    have hr : p.Reaches r := (tagHead_reaches hp).1.trans q.reaches_innerTag
    exact Except.error.inj h ▸ ScanError.foundBehind_between _ (.refl r) hr
  | case3 p head q hp _ r =>
    rename_i ih
    have hr : p.Reaches r := (tagHead_reaches hp).1.trans q.reaches_innerTag
    exact (ih (map_eq_error_iff.1 h)).trans hr
  | case4 p head q hp =>
    exact (tagBody_error (map_eq_error_iff.1 h)).trans (tagHead_reaches hp).1

/-- A line is wrong by how it starts, or in its tags. -/
theorem lineContent_error {indent : Nat} (h : lineContent indent p = .error e) :
    e.FoundBehind p := by
  have hbetween (cause : ScanError.Cause) (n : Nat) :
      (ScanError.between cause p (p.drop n)).FoundBehind p :=
    ScanError.foundBehind_between _ (p.reaches_drop n) (.refl p)
  rw [lineContent] at h
  split at h
  · simp at h
  · exact Except.error.inj h ▸ hbetween _ 2
  · simp at h
  · simp at h
  · exact Except.error.inj h ▸ hbetween _ 1
  · exact Except.error.inj h ▸ hbetween _ 1
  · exact Except.error.inj h ▸ hbetween _ 1
  · exact tagLine_error h

/-- A text is wrong in the indentation of a line or behind it, and so from the first line on. -/
theorem scanLines_error {levels : List Nat} {first : Bool}
    (h : scanLines levels first p = .error e) : e.FoundBehind p := by
  fun_induction scanLines levels first p with
  | case1 => simp at h
  | case2 _ _ p _ _ ih => exact (ih h).trans p.reaches_nextLine
  | case3 _ _ p =>
    exact Except.error.inj h ▸ ScanError.foundBehind_between _ (p.reaches_drop _) (.refl p)
  | case4 _ _ p =>
    exact Except.error.inj h ▸ ScanError.foundBehind_between _ (p.reaches_drop _) (.refl p)
  | case5 _ _ p =>
    rename_i he
    exact (lineContent_error (Except.error.inj h ▸ he)).trans (p.reaches_drop p.indent)
  | case6 _ _ p _ _ _ _ _ _ _ _ _ hc =>
    rename_i ih
    exact (ih (map_eq_error_iff.1 h)).trans
      ((p.reaches_drop p.indent).trans (lineContent_reaches hc).1)

end SlotMarkup
