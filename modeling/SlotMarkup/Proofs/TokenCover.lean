import SlotMarkup.Proofs.OpeningLines

/-!
# What tokens cover

Cutting a text into tokens leaves out blanks, the commas between the attributes of a
list and the slash of a tag without content. What else is left out is what comes after
a carriage return directly behind the head of a tag: the return ends the tag, but not
its line, and the rest of the line is in no token (`Accounted`).

Readers are followed from place to place: what lies between two of them is *covered* by
some tokens if all of it is accounted for (`Covered`).

* `lineContent_covered`, `scanLines_covered`: nothing else is left out;
* `Token.scan_covers`: the same in terms of spans, up to their limit;
* `Token.scan_covers_of_breaks`: without stray carriage returns nothing is lost.
-/

namespace SlotMarkup

/-! ## Places before others -/

namespace Place

/-- `q` comes after at least a character from `p` on. -/
def Precedes (p q : Place) : Prop := p.Reaches q ∧ q.rest.length < p.rest.length

/-- What is before a place is before any later one. -/
theorem Precedes.trans_reaches {p q r : Place} (h : p.Precedes q) (k : q.Reaches r) :
    p.Precedes r := ⟨h.1.trans k, Nat.lt_of_le_of_lt k.length_le h.2⟩

/-- Of two places of a text one is before the other. -/
theorem Reaches.precedes_or {p q r : Place} (hq : p.Reaches q) (hr : p.Reaches r) :
    r.Precedes q ∨ q.Reaches r := by
  obtain ⟨m, rfl⟩ := hq
  obtain ⟨n, rfl⟩ := hr
  by_cases hmn : m ≤ n
  · exact .inr ⟨n - m, by rw [drop_drop, Nat.add_sub_cancel' hmn]⟩
  · have hreach : (p.drop n).Reaches (p.drop m) :=
      ⟨m - n, by rw [drop_drop, Nat.add_sub_cancel' (Nat.le_of_not_le hmn)]⟩
    by_cases hn : n < p.rest.length
    · exact .inl ⟨hreach, by simp only [rest_drop, List.length_drop]; omega⟩
    · -- Both are the end of the text.
      have hle : p.rest.length ≤ n := Nat.le_of_not_lt hn
      have hle' : p.rest.length ≤ m := by omega
      refine .inr ⟨0, ?_⟩
      rw [drop_zero, drop, drop, List.take_of_length_le hle, List.take_of_length_le hle',
        List.drop_of_length_le hle, List.drop_of_length_le hle']

/-- Between a place and the next there is no other. -/
theorem Reaches.eq_of_precedes_drop_one {p r : Place} (hr : p.Reaches r)
    (h : r.Precedes (p.drop 1)) : r = p := by
  obtain ⟨n, rfl⟩ := hr
  have hlt := h.2
  simp only [rest_drop, List.length_drop] at hlt
  obtain rfl : n = 0 := by omega
  exact p.drop_zero

/-- What stands between two places is in the text between them. -/
theorem Precedes.head_mem_upTo {p q r : Place} (hr : p.Reaches r) (h : r.Precedes q) :
    ∀ c ∈ r.rest.head?, c ∈ p.upTo q := by
  obtain ⟨n, rfl⟩ := hr
  have hlt := h.2
  rw [rest_drop, List.length_drop] at hlt
  intro c hc
  rw [rest_drop, List.head?_drop] at hc
  refine List.mem_of_getElem? (i := n) ?_
  rw [upTo, List.getElem?_take_of_lt (by omega)]
  exact hc

end Place

/-! ## Accounts -/

/-- The kinds of tokens that the head of a tag can end with. -/
def headEnds : List Kind := [.tag, .idShorthand, .classShorthand, .closeAttributes]

/-- What becomes of the character at `r`, given the tokens of the text from `p` on. -/
inductive Accounted (p : Place) (ts : List Token) (r : Place) : Prop
  | blank (h : ∀ c ∈ r.rest.head?, isBlank c = true)
  /-- It is in a token. -/
  | held {l a b} (ht : .read l a b ∈ ts) (ha : a.Reaches r) (hb : r.Precedes b)
  /-- It is a comma in an attribute list. -/
  | comma {a b as d e} (hc : r.rest.head? = some ',')
      (ht : .read .openAttributes a b :: (as ++ [.read .closeAttributes d e]) <:+: ts)
      (has : ∀ t ∈ as, t.kind = .attr) (hb : b.Reaches r) (hd : r.Precedes d)
  /-- It is the slash that closes a tag without content. -/
  | slash {l a} (hc : r.rest.head? = some '/') (ht : .read l a r ∈ ts) (hl : l.kind ∈ headEnds)
      (hb : restIsBlank (r.drop 1) = true)
  /-- It is on the line of a carriage return directly behind the head of a tag. -/
  | lost {l a s} (ht : .read l a s ∈ ts) (hl : l.kind ∈ headEnds) (hp : p.Reaches s)
      (hs : s.rest.head? = some '\r') (hr : s.OnLine r)

/-- All that lies between two places is accounted for. -/
def Covered (ts : List Token) (p q : Place) : Prop :=
  ∀ r, p.Reaches r → r.Precedes q → Accounted p ts r

/-- What is accounted for by some tokens is so by more of them. -/
theorem Accounted.mono {us ts : List Token} {p q r : Place} (h : Accounted q us r)
    (hs : us <:+: ts) (hp : p.Reaches q) : Accounted p ts r := by
  cases h with
  | blank h => exact .blank h
  | held ht ha hb => exact .held (hs.subset ht) ha hb
  | comma hc ht has hb hd => exact .comma hc (ht.trans hs) has hb hd
  | slash hc ht hl hb => exact .slash hc (hs.subset ht) hl hb
  | lost ht hl hq hs' hr => exact .lost (hs.subset ht) hl (hp.trans hq) hs' hr

/-- What is covered by some tokens is so by more of them. -/
theorem Covered.mono {us ts : List Token} {p q : Place} (h : Covered us p q) (hs : us <:+: ts) :
    Covered ts p q := fun r hr hq => (h r hr hq).mono hs (.refl p)

/-- Stretches that are covered one behind the other are covered together. -/
theorem Covered.trans {ts : List Token} {p q s : Place} (h : Covered ts p q) (k : Covered ts q s)
    (hq : p.Reaches q) : Covered ts p s := fun r hr hs => by
  rcases hq.precedes_or hr with hrq | hqr
  · exact h r hr hrq
  · exact (k r hqr hs).mono List.infix_rfl hq

/-- What was read first is before what was read next. -/
theorem Covered.append {ts us : List Token} {p q s : Place} (h : Covered ts p q)
    (k : Covered us q s) (hq : p.Reaches q) : Covered (ts ++ us) p s :=
  (h.mono (List.prefix_append ts us).isInfix).trans (k.mono (List.suffix_append ts us).isInfix) hq

theorem covered_refl (ts : List Token) (p : Place) : Covered ts p p := fun _ hr hp =>
  absurd hr.length_le (Nat.not_le_of_lt hp.2)

/-- What is read as a token is in it. -/
theorem covered_read (l : Lexeme) (p q : Place) : Covered [.read l p q] p q := fun _ hr hq =>
  .held (List.mem_singleton_self _) hr hq

/-- Nothing is needed to cover blanks. -/
theorem covered_of_upTo {p q : Place} (h : ∀ c ∈ p.upTo q, isBlank c = true) (ts : List Token) :
    Covered ts p q := fun _ hr hq => .blank fun c hc => h c (hq.head_mem_upTo hr c hc)

/-- Blanks in front of a place are covered up to it. -/
theorem covered_of_append {p q : Place} (cs : List Char) (h : p.rest = cs ++ q.rest)
    (hcs : ∀ c ∈ cs, isBlank c = true) (ts : List Token) : Covered ts p q :=
  covered_of_upTo (Place.upTo_eq_of_append h ▸ hcs) ts

/-! ## Blanks -/

theorem Place.upTo_skip (p : Place) (f : Char → Bool) :
    p.upTo (p.skip f) = p.rest.takeWhile f := by
  refine upTo_eq_of_append ?_
  rw [skip, rest_drop, drop_length_takeWhile, List.takeWhile_append_dropWhile]

/-- Blanks that are skipped are covered. -/
theorem covered_skip {f : Char → Bool} (hf : ∀ c, f c = true → isBlank c = true) (p : Place)
    (ts : List Token) : Covered ts p (p.skip f) :=
  covered_of_upTo (fun c hc => hf c (mem_takeWhile (p.upTo_skip f ▸ hc))) ts

theorem Place.rest_lineEnd (p : Place) : p.lineEnd.rest = lineBreak p ++ p.nextLine.rest := by
  rw [lineEnd, rest_drop]
  conv => lhs; rw [← p.line_append_nextLine]
  exact List.drop_left

/-- A line break is blank. -/
theorem covered_lineBreak (p : Place) (ts : List Token) : Covered ts p.lineEnd p.nextLine :=
  covered_of_append _ p.rest_lineEnd (fun _ => isBlank_of_mem_lineBreak) ts

/-- A blank line is covered with its line break. -/
theorem covered_blankLine {p : Place} (h : isBlankText p.line = true) (ts : List Token) :
    Covered ts p p.nextLine := by
  refine covered_of_append (p.line ++ lineBreak p) ?_ (fun c hc => ?_) ts
  · rw [List.append_assoc, p.line_append_nextLine]
  · rcases List.mem_append.1 hc with hc | hc
    · exact List.all_eq_true.1 h c hc
    · exact isBlank_of_mem_lineBreak hc

/-! ## Heads -/

/-- An attribute has the span of all that is read for it. -/
theorem readAttribute_read {p q : Place} {t : Token} (h : readAttribute p = .ok (t, q)) :
    ∃ l, t = .read l p q := by
  rw [readAttribute] at h
  split at h
  · simp at h
  · split at h
    · obtain ⟨rfl, rfl⟩ := Prod.mk.inj (Except.ok.inj h)
      exact ⟨_, rfl⟩
    · obtain ⟨r, -, hr⟩ := map_eq_ok_iff.1 h
      obtain ⟨rfl, rfl⟩ := Prod.mk.inj hr
      exact ⟨_, rfl⟩

/-- The attributes up to the closing parenthesis, and that one. -/
theorem attributesFrom_closing {start p q : Place} {ts : List Token}
    (h : attributesFrom start p = .ok (ts, q)) :
    ∃ as d, ts = as ++ [.read .closeAttributes d q] ∧ (∀ t ∈ as, t.kind = .attr) ∧
      (p.skip isSeparator).Reaches d := by
  fun_induction attributesFrom start p generalizing ts with
  | case1 => simp at h
  | case2 p r =>
    obtain ⟨rfl, rfl⟩ := Prod.mk.inj (Except.ok.inj h)
    exact ⟨[], r, rfl, by simp, .refl r⟩
  | case3 => simp at h
  | case4 p r t s hr =>
    rename_i ih
    obtain ⟨us, hus, rfl⟩ := Scan.after_eq_ok_iff.1 h
    obtain ⟨as, d, rfl, has, hd⟩ := ih hus
    refine ⟨t :: as, d, rfl, fun a ha => ?_, ?_⟩
    · rcases List.mem_cons.1 ha with rfl | ha
      · exact readAttribute_kind hr
      · exact has a ha
    · exact (readAttribute_reaches hr).1.trans ((s.reaches_skip isSeparator).trans hd)

/-- Between attributes are blanks and the commas of their list. -/
theorem covered_separators {a b d e p : Place} {as : List Token}
    (has : ∀ t ∈ as, t.kind = .attr) (hb : b.Reaches p) (hd : (p.skip isSeparator).Reaches d) :
    Covered (.read .openAttributes a b :: (as ++ [.read .closeAttributes d e])) p
      (p.skip isSeparator) := by
  intro r hr hlt
  cases hc : r.rest.head? with
  | none => exact .blank (by simp [hc])
  | some c =>
    have hsep := mem_takeWhile (p.upTo_skip isSeparator ▸ hlt.head_mem_upTo hr c hc)
    rw [isSeparator, Bool.or_eq_true, beq_iff_eq] at hsep
    rcases hsep with hblank | rfl
    · exact .blank (by simpa [hc] using hblank)
    · exact .comma hc List.infix_rfl has (hb.trans hr) (hlt.trans_reaches hd)

/-- A list is covered by its attributes but for blanks and commas between them. -/
theorem attributesFrom_covered {start a b p q : Place} {as ts : List Token}
    (h : attributesFrom start p = .ok (ts, q)) (has : ∀ t ∈ as, t.kind = .attr)
    (hb : b.Reaches p) : Covered (.read .openAttributes a b :: (as ++ ts)) p q := by
  fun_induction attributesFrom start p generalizing as ts with
  | case1 => simp at h
  | case2 p r =>
    obtain ⟨rfl, rfl⟩ := Prod.mk.inj (Except.ok.inj h)
    have hclose := covered_read .closeAttributes r (r.drop 1)
    exact (covered_separators has hb (.refl r)).trans
      (hclose.mono (List.suffix_append (_ :: as) _).isInfix) (p.reaches_skip _)
  | case3 => simp at h
  | case4 p r t s hr =>
    rename_i ih
    obtain ⟨us, hus, rfl⟩ := Scan.after_eq_ok_iff.1 h
    obtain ⟨bs, d, rfl, hbs, hd⟩ := attributesFrom_closing hus
    obtain ⟨l, rfl⟩ := readAttribute_read hr
    have hattr : ∀ u ∈ as ++ [.read l r s], u.kind = .attr := fun u hu => by
      rcases List.mem_append.1 hu with hu | hu
      · exact has u hu
      · exact List.mem_singleton.1 hu ▸ readAttribute_kind hr
    have hrs := (readAttribute_reaches hr).1
    have hmore := ih hus hattr (hb.trans ((p.reaches_skip _).trans hrs))
    rw [List.append_assoc] at hmore
    -- The commas before the attribute are in the list up to its end.
    have hcommas : Covered (.read .openAttributes a b ::
        ((as ++ [.read l r s] ++ bs) ++ [.read .closeAttributes d q])) p r := by
      refine covered_separators (fun u hu => ?_) hb (hrs.trans ((s.reaches_skip _).trans hd))
      rcases List.mem_append.1 hu with hu | hu
      · exact hattr u hu
      · exact hbs u hu
    rw [List.append_assoc, List.append_assoc] at hcommas
    have hread : [Token.read l r s] <:+: .read .openAttributes a b ::
        (as ++ ([.read l r s] ++ (bs ++ [.read .closeAttributes d q]))) :=
      ⟨.read .openAttributes a b :: as, bs ++ [.read .closeAttributes d q], by simp⟩
    exact hcommas.trans (((covered_read l r s).mono hread).trans hmore hrs) (p.reaches_skip _)

/-- A list is covered from one parenthesis to the other. -/
theorem attributeList_covered {p q : Place} {ts : List Token} (h : attributeList p = .ok (ts, q)) :
    Covered ts p q := by
  obtain ⟨us, hus, rfl⟩ := Scan.after_eq_ok_iff.1 h
  have hopen := (covered_read .openAttributes p (p.drop 1)).mono
    (List.prefix_append [.read .openAttributes p (p.drop 1)] us).isInfix
  have hlist : Covered (.read .openAttributes p (p.drop 1) :: ([] ++ us)) (p.drop 1) q :=
    attributesFrom_covered hus (by simp) (.refl _)
  exact hopen.trans hlist (p.reaches_drop 1)

/-- A head ends at `q`. -/
def EndsHead (ts : List Token) (q : Place) : Prop :=
  ∃ us l a, ts = us ++ [.read l a q] ∧ l.kind ∈ headEnds

/-- A shorthand has the span of its sigil and its name, and can end a head. -/
theorem shorthand?_read {p q : Place} {t : Token} (h : shorthand? p = some (t, q)) :
    ∃ l, t = .read l p q ∧ l.kind ∈ headEnds := by
  have hl : t.kind ∈ headEnds := by
    rcases shorthand?_kind h with hk | hk <;> simp [hk, headEnds]
  rw [shorthand?] at h
  split at h
  · split at h
    · split at h
      · obtain ⟨rfl, rfl⟩ := Prod.mk.inj (Option.some.inj h)
        exact ⟨_, rfl, hl⟩
      · simp at h
    · simp at h
  · simp at h

/-- A list can end a head. -/
theorem attributeList_ends {p q : Place} {ts : List Token} (h : attributeList p = .ok (ts, q)) :
    EndsHead ts q := by
  obtain ⟨us, hus, rfl⟩ := Scan.after_eq_ok_iff.1 h
  obtain ⟨as, d, rfl, -, -⟩ := attributesFrom_closing hus
  exact ⟨.read .openAttributes p (p.drop 1) :: as, .closeAttributes, d, rfl, by decide⟩

/-- What ends a head ends it behind any tokens. -/
theorem EndsHead.after {ts : List Token} {q : Place} (h : EndsHead ts q) (us : List Token) :
    EndsHead (us ++ ts) q := by
  obtain ⟨vs, l, a, rfl, hl⟩ := h
  exact ⟨us ++ vs, l, a, by rw [List.append_assoc], hl⟩

theorem endsHead_read {l : Lexeme} {p q : Place} (h : l.kind ∈ headEnds) :
    EndsHead [.read l p q] q := ⟨[], l, p, rfl, h⟩

/-- Shorthands and lists stand one directly behind the other, and the last of them ends the head. -/
theorem tagParts_covered {p q : Place} {ts : List Token} (h : tagParts p = .ok (ts, q)) :
    Covered ts p q ∧ ∀ hs, EndsHead hs p → EndsHead (hs ++ ts) q := by
  fun_induction tagParts p generalizing ts with
  | case1 p t r hs ih =>
    obtain ⟨us, hus, rfl⟩ := Scan.after_eq_ok_iff.1 h
    obtain ⟨l, rfl, hl⟩ := shorthand?_read hs
    obtain ⟨hcov, hends⟩ := ih hus
    refine ⟨(covered_read l p r).append hcov (shorthand?_reaches hs).1, fun vs _ => ?_⟩
    rw [← List.append_assoc]
    exact hends _ ((endsHead_read hl).after vs)
  | case2 => simp at h
  | case3 p _ hp us r hl ih =>
    obtain ⟨vs, hvs, rfl⟩ := Scan.after_eq_ok_iff.1 h
    obtain ⟨hcov, hends⟩ := ih hvs
    have hr := (attributeList_reaches (fun h => by simp [h] at hp) hl).1
    refine ⟨(attributeList_covered hl).append hcov hr, fun ws _ => ?_⟩
    rw [← List.append_assoc]
    exact hends _ ((attributeList_ends hl).after ws)
  | case4 =>
    obtain ⟨rfl, rfl⟩ := Prod.mk.inj (Except.ok.inj h)
    exact ⟨covered_refl _ _, fun hs hh => by rwa [List.append_nil]⟩

/-- A head is covered from its name to its end. -/
theorem tagHead_covered {p q : Place} {ts : List Token} (h : tagHead p = .ok (ts, q)) :
    Covered ts p q ∧ EndsHead ts q := by
  rw [tagHead] at h
  split at h
  · rename_i name hname
    dsimp only at h
    split at h
    · simp at h
    · obtain ⟨us, hus, rfl⟩ := Scan.after_eq_ok_iff.1 h
      obtain ⟨hcov, hends⟩ := tagParts_covered hus
      exact ⟨(covered_read _ p _).append hcov (p.reaches_drop _),
        hends _ (endsHead_read (by simp [Lexeme.kind, headEnds]))⟩
  · split at h
    · rename_i t r hs
      obtain ⟨us, hus, rfl⟩ := Scan.after_eq_ok_iff.1 h
      obtain ⟨l, rfl, hl⟩ := shorthand?_read hs
      obtain ⟨hcov, hends⟩ := tagParts_covered hus
      exact ⟨(covered_read l p r).append hcov (shorthand?_reaches hs).1,
        hends _ (endsHead_read hl)⟩
    · simp at h

/-! ## Nested lines -/

/-- The end of a line is on the line. -/
theorem Place.onLine_lineEnd (p : Place) : p.OnLine p.lineEnd := by
  refine p.onLine_drop (p.line_append_nextLine).symm fun c hc hn => ?_
  have := mem_takeWhile (p.line_append_lineBreak ▸ List.mem_append_left _ hc)
  simp [hn] at this

theorem Place.lineEnd_reaches_nextLine (p : Place) : p.lineEnd.Reaches p.nextLine :=
  p.onLine_lineEnd.2 ▸ p.lineEnd.reaches_nextLine

/-- The lines of a nested run come one after the other. -/
theorem nestedRun_order (base : Nat) (p : Place) :
    (∀ q ∈ (nestedRun base p).1, p.Reaches q) ∧
      (nestedRun base p).1.Pairwise fun q r => q.nextLine.Reaches r := by
  fun_induction nestedRun base p with
  | case1 => simp
  | case2 p _ _ lines next hrun ih =>
    rw [hrun] at ih
    refine ⟨fun q hq => ?_, List.pairwise_cons.2 ih⟩
    rcases List.mem_cons.1 hq with rfl | hq
    · exact .refl q
    · exact p.reaches_nextLine.trans (ih.1 q hq)
  | case3 => simp

/-- A nested run is covered if its lines are. -/
theorem nestedRun_covered {base : Nat} {p : Place} {ts : List Token}
    (h : ∀ q ∈ (nestedRun base p).1, Covered ts q q.nextLine) :
    Covered ts p (nestedRun base p).2 := by
  fun_induction nestedRun base p with
  | case1 => exact covered_refl ts _
  | case2 p _ _ lines next hrun ih =>
    rw [hrun] at ih
    exact (h p List.mem_cons_self).trans (ih fun q hq => h q (List.mem_cons_of_mem _ hq))
      p.reaches_nextLine
  | case3 => exact covered_refl ts _

section Strip

variable {width : Nat} {p : Place} (h : isBlankText p.line = false → width ≤ p.indent)
include h

/-- What is left of a line is a part of it. -/
theorem stripLine_within : p.Reaches (stripLine width p).start ∧
    (stripLine width p).start.Reaches (stripLine width p).stop ∧
    (stripLine width p).stop.Reaches p.nextLine := by
  rw [stripLine]
  split
  · exact ⟨.refl p, .refl p, p.reaches_nextLine⟩
  · rename_i hb
    have hlen : width ≤ p.line.length := Nat.le_trans (h (by simpa using hb)) p.indent_le_length
    refine ⟨p.reaches_drop width, ⟨p.line.length - width, ?_⟩, p.lineEnd_reaches_nextLine⟩
    rw [Place.lineEnd, Place.drop_drop, Nat.add_sub_cancel' hlen]

/-- A line is covered if what is left of it is. -/
theorem stripLine_covered {ts : List Token}
    (hs : Covered ts (stripLine width p).start (stripLine width p).stop) :
    Covered ts p p.nextLine := by
  by_cases hb : isBlankText p.line = true
  · exact covered_blankLine hb ts
  · obtain ⟨hstart, hstop, -⟩ := stripLine_within h
    rw [stripLine, if_neg hb] at hs hstart hstop
    have hindent := isIndent_of_mem_take (h (by simpa using hb))
    have hleft : Covered ts p (p.drop width) :=
      covered_of_append (p.rest.take width) (List.take_append_drop width p.rest).symm
        (fun c hc => isBlank_of_isIndent (hindent c hc)) ts
    exact (hleft.trans hs hstart).trans (covered_lineBreak p ts) (hstart.trans hstop)

end Strip

/-- The lines nested below a line are what is left of the lines of the run, but for blank
    ones at its end. -/
theorem nestedLines_eq {base : Nat} {p next : Place} {lines : List Stretch}
    (h : nestedLines base p = (lines, next)) : next = (nestedRun base p).2 ∧
      ∃ kept width, kept <+: (nestedRun base p).1 ∧ lines = kept.map (stripLine width) ∧
        (∀ q ∈ kept, isBlankText q.line = false → width ≤ q.indent) ∧
        ∀ q ∈ (nestedRun base p).1, isBlankText q.line = false → q ∈ kept := by
  obtain ⟨rfl, rfl⟩ := Prod.mk.inj h
  have hsplit := dropTrailing_append_takeWhile (fun q : Place => isBlankText q.line)
    (nestedRun base p).1
  refine ⟨rfl, _, _, ⟨_, hsplit⟩, rfl, fun q hq hb => ?_, fun q hq hb => ?_⟩
  · exact List.min?_getD_le_of_mem
      (List.mem_map_of_mem (List.mem_filter.2 ⟨hq, by simp [hb]⟩))
  · rw [← hsplit] at hq
    rcases List.mem_append.1 hq with hq | hq
    · exact hq
    · have := mem_takeWhile (f := fun q : Place => isBlankText q.line) (List.mem_reverse.1 hq)
      simp [hb] at this

/-- The lines nested below a line are covered if what is left of them is. -/
theorem nestedLines_covered {base : Nat} {p next : Place} {lines : List Stretch}
    {ts : List Token} (h : nestedLines base p = (lines, next))
    (hlines : ∀ s ∈ lines, Covered ts s.start s.stop) : Covered ts p next := by
  obtain ⟨rfl, kept, width, -, rfl, hwidth, hkept⟩ := nestedLines_eq h
  refine nestedRun_covered fun q hq => ?_
  by_cases hb : isBlankText q.line = true
  · exact covered_blankLine hb ts
  · have hmem := hkept q hq (by simpa using hb)
    exact stripLine_covered (hwidth q hmem) (hlines _ (List.mem_map_of_mem hmem))

/-- Nothing of the lines nested below a line is after the end of the last one. -/
theorem nestedLines_order {base : Nat} {p next : Place} {lines : List Stretch}
    (h : nestedLines base p = (lines, next)) :
    (∀ s ∈ lines, p.Reaches s.start ∧ s.start.Reaches s.stop) ∧
      ∀ last ∈ lines.getLast?, ∀ s ∈ lines, s.stop.Reaches last.stop := by
  obtain ⟨-, kept, width, hinit, rfl, hwidth, -⟩ := nestedLines_eq h
  obtain ⟨hstart, horder⟩ := nestedRun_order base p
  refine ⟨fun s hs => ?_, fun last hlast s hs => ?_⟩
  · obtain ⟨q, hq, rfl⟩ := List.mem_map.1 hs
    obtain ⟨hqs, hstop, -⟩ := stripLine_within (hwidth q hq)
    exact ⟨(hstart q (hinit.subset hq)).trans hqs, hstop⟩
  · obtain ⟨q, hq, rfl⟩ := List.mem_map.1 hs
    rw [List.getLast?_map] at hlast
    obtain ⟨r, hr, rfl⟩ := Option.map_eq_some_iff.1 hlast
    obtain ⟨init, rfl⟩ := List.getLast?_eq_some_iff.1 hr
    rcases List.mem_append.1 hq with hq' | hq'
    · have hnext := (List.pairwise_append.1 (horder.sublist hinit.sublist)).2.2 q hq' r
        (List.mem_singleton_self r)
      obtain ⟨-, -, hqn⟩ := stripLine_within (hwidth q hq)
      obtain ⟨hrs, hrstop, -⟩ := stripLine_within (hwidth r (by simp))
      exact hqn.trans (hnext.trans (hrs.trans hrstop))
    · rw [List.mem_singleton.1 hq']
      exact .refl _

/-! ## Bodies -/

/-- A line of a text block is covered by its text. -/
theorem textLineTokens_covered (s : Stretch) : Covered (textLineTokens s) s.start s.stop := by
  rw [textLineTokens]
  split
  · rename_i h
    refine covered_of_upTo (fun c hc => ?_) _
    rw [← Stretch.chars, h] at hc
    simp at hc
  · exact covered_read _ s.start s.stop

/-- Each line of a text block has its tokens among those of the block. -/
theorem textLineTokens_within {lines : List Stretch} {s : Stretch} (h : s ∈ lines) :
    textLineTokens s <:+: textLinesTokens lines := by
  induction lines with
  | nil => simp at h
  | cons u lines ih =>
    have htokens : textLinesTokens (u :: lines) =
        [⟨.newline, u.start.point⟩] ++ textLineTokens u ++ textLinesTokens lines := rfl
    rw [htokens]
    rcases List.mem_cons.1 h with rfl | h
    · exact List.infix_append _ _ _
    · exact (ih h).trans (List.suffix_append _ _).isInfix

/-- A text block is covered but for its line breaks and the indentation of its lines. -/
theorem textBlock_covered {indent : Nat} {p q : Place} {cs : List Char} {ts : List Token}
    (hp : p.rest = '.' :: cs) (hb : restIsBlank (p.drop 1) = true)
    (h : textBlock indent p = (ts, q)) : Covered ts p q := by
  rw [textBlock] at h
  cases hlines : nestedLines indent p.nextLine with
  | mk lines next =>
    rw [hlines] at h
    obtain ⟨rfl, rfl⟩ := Prod.mk.inj h
    have hdot := (covered_read .openTextBlock p (p.drop 1)).append
      (covered_blankLine hb []) (p.reaches_drop 1)
    rw [Place.nextLine_drop_one hp (by decide)] at hdot
    refine (hdot.mono (List.prefix_append _ _).isInfix).trans
      (nestedLines_covered hlines fun s hs => ?_) p.reaches_nextLine
    refine (textLineTokens_covered s).mono (List.IsInfix.trans ?_ (List.suffix_cons _ _).isInfix)
    cases lines with
    | nil => simp at hs
    | cons u lines =>
      refine List.IsInfix.trans (?_ : _ <:+: textLineTokens u ++ textLinesTokens lines)
        (List.prefix_append _ _).isInfix
      rcases List.mem_cons.1 hs with rfl | hs
      · exact (List.prefix_append _ _).isInfix
      · exact (textLineTokens_within hs).trans (List.suffix_append _ _).isInfix

/-- What follows the head of a tag is covered together with the last token of the head. -/
theorem tagBody_covered {indent : Nat} {p q a : Place} {l : Lexeme} {ts : List Token}
    (hl : l.kind ∈ headEnds) (h : tagBody indent p = .ok (ts, q)) :
    Covered (.read l a p :: ts) p q := by
  rw [tagBody] at h
  split at h
  · -- The line ends here. If it does not, it goes on after a carriage return.
    rename_i hend
    obtain ⟨rfl, rfl⟩ := Prod.mk.inj (Except.ok.inj h)
    rw [atLineEnd] at hend
    split at hend
    · rename_i hp
      exact covered_blankLine (by simp [Place.line, hp, isBlankText]) _
    · rename_i c cs hp
      rw [Bool.or_eq_true, beq_iff_eq, beq_iff_eq] at hend
      rcases hend with rfl | rfl
      · exact covered_blankLine (by simp [Place.line, hp, isBlankText]) _
      · intro r hr hlt
        rcases hr.onLine_or with hline | hlater
        · exact .lost List.mem_cons_self hl (.refl _) (by rw [hp]; rfl) hline
        · exact absurd hlater.length_le (Nat.not_le_of_lt hlt.2)
  · split at h
    · rename_i hp
      split at h
      · rename_i hb
        exact (textBlock_covered hp hb (Except.ok.inj h)).mono (List.suffix_cons _ _).isInfix
      · simp at h
    · rename_i hp
      have hspace (us : List Token) : Covered us p (p.drop 1) :=
        covered_of_append [' '] (by rw [Place.rest_drop, hp]; rfl) (by simp [isBlank]) us
      have hnext := Place.nextLine_drop_one hp (by decide)
      dsimp only at h
      split at h
      · rename_i hb
        obtain ⟨rfl, rfl⟩ := Prod.mk.inj (Except.ok.inj h)
        exact hnext ▸ (hspace _).trans (covered_blankLine hb _) (p.reaches_drop 1)
      · obtain ⟨rfl, rfl⟩ := Prod.mk.inj (Except.ok.inj h)
        have htext := (covered_read (.text (String.ofList (p.drop 1).line)) (p.drop 1)
          (p.drop 1).lineEnd).trans (covered_lineBreak _ _) (p.drop 1).reaches_lineEnd
        rw [hnext] at htext
        exact (hspace _).trans (htext.mono (List.suffix_cons _ _).isInfix) (p.reaches_drop 1)
    · rename_i hp
      split at h
      · rename_i hb
        obtain ⟨rfl, rfl⟩ := Prod.mk.inj (Except.ok.inj h)
        have hslash : Covered [.read l a p] p (p.drop 1) := fun r hr hlt => by
          obtain rfl := hr.eq_of_precedes_drop_one hlt
          exact .slash (by rw [hp]; rfl) (List.mem_singleton_self _) hl hb
        exact Place.nextLine_drop_one hp (by decide) ▸
          hslash.trans (covered_blankLine hb _) (p.reaches_drop 1)
      · simp at h
    all_goals simp at h

/-! ## Lines -/

/-- A line of tags is covered by them, but for what may stand behind the last head. -/
theorem tagLine_covered {indent : Nat} {p q : Place} {ts : List Token}
    (h : tagLine indent p = .ok (ts, q)) : Covered ts p q := by
  fun_induction tagLine indent p generalizing ts with
  | case1 => simp at h
  | case2 => simp at h
  | case3 p head r hp =>
    rename_i ih
    obtain ⟨us, hus, rfl⟩ := Scan.after_eq_ok_iff.1 h
    have hhead := (tagHead_covered hp).1
    have hcolon := (covered_read .colon r (r.drop 1)).trans
      (covered_skip (fun _ => isBlank_of_isIndent) (r.drop 1) _) (r.reaches_drop 1)
    have hr := (tagHead_reaches hp).1
    exact (hhead.append hcolon hr).append (ih hus) (hr.trans r.reaches_innerTag)
  | case4 p head r hp =>
    obtain ⟨us, hus, rfl⟩ := Scan.after_eq_ok_iff.1 h
    obtain ⟨hhead, hs, l, a, rfl, hl⟩ := tagHead_covered hp
    have hbody := tagBody_covered (a := a) hl hus
    have htail : .read l a r :: us <:+: hs ++ [.read l a r] ++ us := ⟨hs, [], by simp⟩
    exact (hhead.mono (List.prefix_append _ _).isInfix).trans (hbody.mono htail)
      (tagHead_reaches hp).1

/-- A comment is covered, with all lines nested below it. -/
theorem commentLines_covered {indent : Nat} {p q : Place} {ts : List Token}
    (h : commentLines indent p = (ts, q)) : Covered ts p q := by
  rw [commentLines] at h
  cases hlines : nestedLines indent p.nextLine with
  | mk lines next =>
    rw [hlines] at h
    obtain ⟨rfl, rfl⟩ := Prod.mk.inj h
    obtain ⟨hstart, hlast⟩ := nestedLines_order hlines
    generalize hstop : ((lines.getLast?).map Stretch.stop).getD p.lineEnd = stop
    -- The comment goes on up to the end of its last line.
    have hends : p.lineEnd.Reaches stop ∧ ∀ s ∈ lines, s.stop.Reaches stop := by
      cases hl : lines.getLast? with
      | none =>
        rw [List.getLast?_eq_none_iff.1 hl] at hstop ⊢
        exact ⟨hstop ▸ .refl _, by simp⟩
      | some last =>
        obtain rfl : last.stop = stop := by simpa [hl] using hstop
        obtain ⟨hnext, hwithin⟩ := hstart last (List.mem_of_getLast? hl)
        exact ⟨p.lineEnd_reaches_nextLine.trans (hnext.trans hwithin), hlast last hl⟩
    have hfirst {l : Lexeme} : Covered [.read l p stop] p p.nextLine :=
      Covered.trans (fun r hr hlt => .held (List.mem_singleton_self _) hr
        (hlt.trans_reaches hends.1)) (covered_lineBreak p _) p.reaches_lineEnd
    refine hfirst.trans (nestedLines_covered hlines fun s hs r hr hlt => ?_) p.reaches_nextLine
    exact .held (List.mem_singleton_self _) (p.reaches_nextLine.trans ((hstart s hs).1.trans hr))
      (hlt.trans_reaches (hends.2 s hs))

/-- Whatever a line is, it is covered up to where the next one is scanned. -/
theorem lineContent_covered {indent : Nat} {p q : Place} {ts : List Token}
    (h : lineContent indent p = .ok (ts, q)) : Covered ts p q := by
  rw [lineContent] at h
  have hread (l : Lexeme) : Covered [.read l p p.lineEnd] p p.nextLine :=
    (covered_read l p p.lineEnd).trans (covered_lineBreak p _) p.reaches_lineEnd
  split at h
  · exact commentLines_covered (Except.ok.inj h)
  · simp at h
  · obtain ⟨rfl, rfl⟩ := Prod.mk.inj (Except.ok.inj h)
    exact hread _
  · obtain ⟨rfl, rfl⟩ := Prod.mk.inj (Except.ok.inj h)
    exact hread _
  · simp at h
  · simp at h
  · simp at h
  · exact tagLine_covered h

/-! ## Texts -/

/-- Everything from `p` on is accounted for by the tokens of the lines from there. -/
theorem scanLines_accounts {levels : List Nat} {first : Bool} {p r : Place} {ts : List Token}
    (h : scanLines levels first p = .ok ts) (hr : p.Reaches r) : Accounted p ts r := by
  fun_induction scanLines levels first p generalizing ts with
  | case1 levels first p hp =>
    have hle := hr.length_le
    rw [hp, List.length_nil, Nat.le_zero, List.length_eq_zero_iff] at hle
    exact .blank (by simp [hle])
  | case2 levels first p hp hb ih =>
    rcases p.reaches_nextLine.precedes_or hr with hlt | hlater
    · exact covered_blankLine hb ts r hr hlt
    · exact (ih h hlater).mono List.infix_rfl p.reaches_nextLine
  | case3 => simp at h
  | case4 => simp at h
  | case5 => simp at h
  | case6 levels first p hp hb start hmix opening inner hopen content next hc =>
    rename_i ih
    obtain ⟨more, hmore, rfl⟩ := map_eq_ok_iff.1 h
    have hstart : p.Reaches start := p.reaches_skip isIndent
    have hline : Covered content p next :=
      (covered_skip (fun _ => isBlank_of_isIndent) p content).trans (lineContent_covered hc) hstart
    have hnext := hstart.trans (lineContent_reaches hc).1
    rcases hnext.precedes_or hr with hlt | hlater
    · exact (hline r hr hlt).mono ⟨_, more, List.append_assoc _ _ _⟩ (.refl p)
    · exact (ih hmore hlater).mono ((List.suffix_append _ _).trans (List.suffix_append _ _)).isInfix
        hnext

end SlotMarkup
