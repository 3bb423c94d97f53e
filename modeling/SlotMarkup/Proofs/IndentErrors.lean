import SlotMarkup.Proofs.IndentStack
import SlotMarkup.Proofs.OpeningLines
import SlotMarkup.Proofs.ScanRuns

/-!
# Lines that fit nowhere

A line that is not blank is looked at by a scan (`Scanner.ComesTo`) if the lines before are
read and none of them takes it for its own content. It is wrong if it closes lines, but none of
those left is indented as it is; no other line is wrong for that (`Scanner.misfitAt_iff`), as
the content of a line is never blamed on its indentation (`OfContent`).

* `Scanner.phase_of_misfit`: only the opening of a line can be such an error;
* `Scanner.comesTo_line`: the scan comes to every line that goes with no earlier one;
* `Scanner.misfitAt_iff`: a line fits nowhere exactly if its width is between those on the stack;
* `Token.scan_indentation`: the stack, the tokens and the errors of a scan.
-/

namespace SlotMarkup

/-! ## Errors in the content of lines -/

/-- Whether a line is indented as none around it. -/
def ScanError.Cause.isMisfit : Cause → Bool
  | inconsistentIndent _ => true
  | _ => false

/-- What is wrong is not that a line fits nowhere. -/
def OfContent (e : ScanError) : Prop := e.cause.isMisfit = false

section OfContent

variable {p : Place} {e : ScanError}

/-- An error in a string is not that a line fits nowhere. -/
theorem stringEnd_ofContent {quote : Char} (h : stringEnd quote p = .error e) : OfContent e := by
  rw [stringEnd] at h
  split at h
  · simp at h
  · exact Except.error.inj h ▸ rfl

/-- Nor is one in a value. -/
theorem valueEnd_ofContent {depth : Nat} (h : valueEnd depth p = .error e) : OfContent e := by
  fun_induction valueEnd depth p with
  | case1 => simp at h
  | case2 _ _ _ _ _ _ r hr ih => exact ih h
  | case3 _ _ _ _ _ _ _ he => exact stringEnd_ofContent (Except.error.inj h ▸ he)
  | case4 _ _ _ _ _ _ _ ih => exact ih h
  | case5 => simp at h
  | case6 _ _ _ _ _ _ _ _ _ ih => exact ih h
  | case7 => simp at h
  | case8 _ _ _ _ _ _ _ _ _ ih => exact ih h

theorem unexpected_ofContent (p : Place) : OfContent (.unexpected p) := rfl

theorem attributeName_ofContent (h : attributeName p = .error e) : OfContent e := by
  rw [attributeName] at h
  split at h
  · exact Except.error.inj h ▸ unexpected_ofContent p
  · split at h
    · exact stringEnd_ofContent (map_eq_error_iff.1 h)
    · split at h
      · exact Except.error.inj h ▸ unexpected_ofContent p
      · simp at h

/-- Nor is one in an attribute. -/
theorem readAttribute_ofContent (h : readAttribute p = .error e) : OfContent e := by
  rw [readAttribute] at h
  split at h
  · rename_i he
    exact attributeName_ofContent (Except.error.inj h ▸ he)
  · split at h
    · simp at h
    · have hvalue := map_eq_error_iff.1 h
      rw [attributeValue] at hvalue
      split at hvalue
      · rename_i he
        exact valueEnd_ofContent (Except.error.inj hvalue ▸ he)
      · split at hvalue
        · exact Except.error.inj hvalue ▸ rfl
        · simp at hvalue

/-- Nor is one in a body. -/
theorem tagBody_ofContent {indent : Nat} (h : tagBody indent p = .error e) : OfContent e := by
  rw [tagBody] at h
  split at h
  · simp at h
  · split at h
    · split at h
      · simp at h
      · exact Except.error.inj h ▸ unexpected_ofContent p
    · dsimp only at h
      split at h <;> simp at h
    · split at h
      · simp at h
      · exact Except.error.inj h ▸ unexpected_ofContent _
    all_goals exact Except.error.inj h ▸ rfl

/-- Nor is one on a line without a tag. -/
theorem lineContent_ofContent {indent : Nat} (hopens : ¬opensTag p.rest = true)
    (h : lineContent indent p = .error e) : OfContent e := by
  rcases lineContent_of_not_opensTag hopens with hc | hc | hc | ⟨n, hc | hc⟩
  all_goals rw [hc] at h
  · simp at h
  · simp at h
  · simp at h
  · exact Except.error.inj h ▸ rfl
  · exact Except.error.inj h ▸ rfl

end OfContent

namespace Scanner

variable {s t : Scanner} {text : String} {q : Place} {e : ScanError}

/-- Only the opening of a line can find that it fits nowhere. -/
theorem step_ofContent (h : s.step = .error e) (hne : s.phase ≠ .opening) : OfContent e := by
  cases hp : s.phase with
  | opening => exact absurd hp hne
  | fresh first =>
    rw [step, hp] at h
    dsimp only at h
    split at h
    · simp at h
    split at h
    · simp at h
    split at h
    · exact Except.error.inj h ▸ rfl
    split at h
    · simp at h
    split at h
    · simp at h
    split at h <;> simp at h
  | content =>
    rw [step, hp] at h
    dsimp only at h
    split at h
    · simp at h
    · rename_i hopens
      exact lineContent_ofContent hopens (map_eq_error_iff.1 h)
  | head p =>
    rw [step, hp] at h
    dsimp only at h
    split at h
    · split at h
      · exact Except.error.inj h ▸ rfl
      · simp at h
    · split at h
      · simp at h
      · exact Except.error.inj h ▸ rfl
  | parts p =>
    rw [step, hp] at h
    dsimp only at h
    split at h
    · simp at h
    split at h
    · simp at h
    split at h
    · simp at h
    · exact tagBody_ofContent (map_eq_error_iff.1 h)
  | attributes start p =>
    rw [step, hp] at h
    dsimp only at h
    split at h
    · exact Except.error.inj h ▸ rfl
    split at h
    · simp at h
    · exact readAttribute_ofContent (map_eq_error_iff.1 h)
  | writing ts next => cases ts <;> simp [step, hp] at h
  | closing =>
    rw [step, hp] at h
    dsimp only at h
    split at h <;> simp at h
  | done => simp [step, hp] at h

/-- So what is wrong with a line that fits nowhere is found there. -/
theorem phase_of_misfit {w : Nat} (h : s.step = .error e) (hw : e.cause = .inconsistentIndent w) :
    s.phase = .opening := by
  by_contra hne
  have hcontent := step_ofContent h hne
  rw [OfContent, hw] at hcontent
  simp [ScanError.Cause.isMisfit] at hcontent

/-- The opening of a line has only this error. -/
theorem eq_misfit (h : s.step = .error e) (hp : s.phase = .opening) : e = s.misfit := by
  rw [step, hp] at h
  dsimp only at h
  split at h
  · simp at h
  split at h
  · simp at h
  · exact (Except.error.inj h).symm

/-! ## Moving on -/

/-- A bound on what can still be read: twice the number of characters left, and one more where
    a line can still be opened before any of them is read. -/
def ahead (s : Scanner) : Nat :=
  match s.phase with
  | .fresh _ | .opening => 2 * s.line.rest.length + 1
  | .content => 2 * s.line.rest.length
  | .head p => 2 * p.rest.length
  | .parts p | .attributes _ p => 2 * p.rest.length + 1
  | .writing _ next => 2 * next.rest.length + 1
  | .closing | .done => 0

theorem length_inner_le (s : Scanner) : s.inner.rest.length ≤ s.line.rest.length :=
  s.line.length_drop_le _

/-- No step gets more of the text ahead of it. -/
theorem ahead_le (h : s.step = .ok t) : t.ahead ≤ s.ahead := by
  have hinner := s.length_inner_le
  cases moves_of_step h with
  | finish => exact Nat.zero_le _
  | skip hp =>
    have hle := s.line.reaches_nextLine.length_le
    simp only [ahead, hp]
    omega
  | nest hp | unnest hp | first hp | newline hp | close hp | settle hp | write hp | turn hp =>
    simp only [ahead, hp, push]
    omega
  | tags hp =>
    simp only [ahead, hp]
    omega
  | single hp _ hc =>
    have hlt := (lineContent_reaches hc).2
    simp only [ahead, hp]
    omega
  | name hp hname =>
    obtain ⟨hne, hpos⟩ := tagName?_ne_nil hname
    have hlt := Place.length_drop_lt hne hpos
    simp only [ahead, hp, push]
    omega
  | shorthand hp hs =>
    have hlt := (shorthand?_reaches hs).2
    rcases hp with hp | hp
    all_goals
      simp only [ahead, hp, push]
      omega
  | @openList p hp =>
    have hle := p.length_drop_le 1
    simp only [ahead, hp, push]
    omega
  | @colon p hp =>
    have hle := p.reaches_innerTag.length_le
    simp only [ahead, hp, push]
    omega
  | body hp hbody =>
    have hle := (reaches_tagBody hbody).length_le
    simp only [ahead, hp]
    omega
  | @closeList start p q hp hq =>
    have hle := ((p.reaches_skip isSeparator).trans (Place.reaches_drop _ 1)).length_le
    subst hq
    simp only [ahead, hp, push]
    omega
  | @attr start p r u hp hr =>
    have hle := ((p.reaches_skip isSeparator).trans (readAttribute_reaches hr).1).length_le
    simp only [ahead, hp, push]
    omega
  | closeLast | eof => exact Nat.zero_le _
  | rest => exact Nat.le_refl _

theorem Reaches.ahead_le (h : s.Reaches t) : t.ahead ≤ s.ahead := by
  induction h with
  | refl => exact Nat.le_refl _
  | tail _ hstep ih => exact Nat.le_trans (Scanner.ahead_le hstep) ih

/-! ## Lines that are looked at -/

/-- A scan of the text comes to `s`, where it looks at the line at `p`. -/
structure ComesTo (text : String) (s : Scanner) (p : Place) : Prop where
  reached : (start text).Reaches s
  line : s.line = p
  fresh : ∃ first, s.phase = .fresh first

/-- A line that is looked at, with its content. -/
def IsRead (text : String) (l : OpeningLine) : Prop :=
  (∃ s, ComesTo text s l.start) ∧ isBlankText l.start.line = false ∧
    lineContent l.indent (l.start.drop l.indent) = .ok (l.content, l.next)

/-- No line before the one at `q` is wrong. -/
def LexedBefore (text : String) (q : Place) : Prop :=
  ∀ t e, (start text).Reaches t → t.step = .error e → t.line.rest.length ≤ q.rest.length

/-- No comment, text block or attribute list goes on in the line at `q`. -/
def Unswallowed (text : String) (q : Place) : Prop := ∀ l, IsRead text l → ¬l.Swallows q

/-- From a line the scan comes to any later one that was lexed and is not swallowed. -/
theorem comesTo_of_mem (hlexed : LexedBefore text q) (hfree : Unswallowed text q)
    {p : Place} (hs : ComesTo text s p) (hq : q ∈ lineStarts p) : ∃ t, ComesTo text t q := by
  -- From one line that is looked at to the next, up to `q`.
  induction hn : p.rest.length using Nat.strongRecOn generalizing s p with
  | ind n ih =>
    subst hn
    obtain ⟨hreach, rfl, first, hp⟩ := hs
    have hne : s.line.rest ≠ [] := fun hnil => by simp [lineStarts_of_rest_nil hnil] at hq
    by_cases hqs : q = s.line
    · exact ⟨s, hreach, hqs.symm, first, hp⟩
    have hnext : q ∈ lineStarts s.line.nextLine := by
      rw [lineStarts, dif_neg hne] at hq
      exact (List.mem_cons.1 hq).resolve_left hqs
    by_cases hb : isBlankText s.line.line = true
    · have hstep := step_fresh_blank hp hne hb
      exact ih _ (Place.nextLine_lt hne) ⟨hreach.tail hstep, rfl, first, rfl⟩ hnext rfl
    have hbefore : q.rest.length < s.line.rest.length :=
      Nat.lt_of_le_of_lt (length_le_of_mem_lineStarts hnext) (Place.nextLine_lt hne)
    have hlexes (e : ScanError) : ¬s.Fails e := by
      rintro ⟨t, ht, hline, he⟩
      have hle := hlexed t e (hreach.trans ht) he
      rw [hline] at hle
      exact Nat.not_lt_of_le hle hbefore
    have hmix : ¬mixesIndent s.line = true := fun hmix =>
      hlexes _ (Fails.of_step (step_fresh_mixed hp hne hb hmix))
    obtain ⟨levels, hlevels⟩ := List.getLast?_eq_some_iff.1 (sound_of_reaches hreach).balanced.root
    have hopens := opens_line hlevels hp hne hb hmix
    cases hopen : openLine levels first s.line.indent with
    | none =>
      rw [hopen] at hopens
      exact absurd hopens (hlexes _)
    | some o =>
      cases hc : lineContent s.line.indent s.inner with
      | error e => exact absurd (fails_content hlevels hp hne hb hmix hopen hc) (hlexes e)
      | ok r =>
        have hread : IsRead text ⟨s.line, r.1, r.2⟩ :=
          ⟨⟨s, hreach, rfl, first, hp⟩, by simpa using hb, hc⟩
        have hlt : r.2.rest.length < s.line.rest.length :=
          Nat.lt_of_lt_of_le (lineContent_reaches hc).2 s.length_inner_le
        have hafter := ((mem_lineStarts_next hc hq).resolve_left hqs).resolve_left (hfree _ hread)
        exact ih _ hlt ⟨hreach.trans (reaches_nextLine hlevels hp hne hb hmix hopen hc), rfl,
          false, rfl⟩ hafter rfl

/-- The scan looks at every line that goes with no earlier one. -/
theorem comesTo_line (hq : q ∈ lineStarts (.ofText text)) (hlexed : LexedBefore text q)
    (hfree : Unswallowed text q) : ∃ s, ComesTo text s q :=
  comesTo_of_mem hlexed hfree ⟨.refl _, rfl, true, rfl⟩ hq

/-! ## Lines that fit nowhere -/

/-- The scan of the text fails at the line at `q`, as it is indented as no line around it. -/
def MisfitAt (text : String) (q : Place) : Prop :=
  ∃ t e w, (start text).Reaches t ∧ t.line = q ∧ t.step = .error e ∧ e.cause = .inconsistentIndent w

/-- A line whose width is on the stack finds its place there. -/
theorem reaches_content_of_mem (h : s.Sound) (hp : s.phase = .opening)
    (hmem : s.line.indent ∈ s.stack) :
    ∃ t, s.Reaches t ∧ t.phase = .content ∧ t.line = s.line := by
  generalize hstack : s.stack = stack at hmem
  induction stack generalizing s with
  | nil => simp at hmem
  | cons w ws ih =>
    have htop : s.top = w := by rw [top, hstack, List.headD_cons]
    rcases List.mem_cons.1 hmem with rfl | hmem
    · exact ⟨_, .single (step_opening_done hp htop), rfl, rfl⟩
    · have hsorted := h.balanced.sorted
      rw [hstack] at hsorted
      have hlt : s.line.indent < s.top := htop ▸ (List.pairwise_cons.1 hsorted).1 _ hmem
      have hstep := step_opening_close hp hlt
      obtain ⟨t, ht, htp, htl⟩ := ih (h.step hstep) rfl (by rw [push, hstack, List.tail_cons]) hmem
      exact ⟨t, .head hstep ht, htp, htl⟩

/-- A line whose width is not there is wrong. -/
theorem fails_of_not_mem (h : s.Sound) (hp : s.phase = .opening)
    (hmem : s.line.indent ∉ s.stack) : s.Fails s.misfit := by
  generalize hstack : s.stack = stack at hmem
  induction stack generalizing s with
  | nil => exact absurd hstack h.balanced.ne_nil
  | cons w ws ih =>
    have htop : s.top = w := by rw [top, hstack, List.headD_cons]
    obtain ⟨hne, hws⟩ := not_or.1 (mt List.mem_cons.2 hmem)
    rcases Nat.lt_or_gt_of_ne hne with hlt | hgt
    · have hstep := step_opening_close hp (htop ▸ hlt)
      have hfails := ih (h.step hstep) rfl (by rw [push, hstack, List.tail_cons]) hws
      exact .of_reaches (.single hstep) rfl hfails
    · exact .of_step (step_opening_error hp (htop ▸ hgt))

/-- After a line was opened nothing is wrong with its indentation. -/
theorem not_misfitAt_of_content (h : (start text).Reaches s) (hp : s.phase = .content) :
    ¬MisfitAt text s.line := by
  rintro ⟨t, e, w, ht, hline, he, hw⟩
  have hphase := phase_of_misfit he hw
  have hle := (h.to_stop ht (.failed he)).ahead_le
  simp only [ahead, hp, hphase, hline] at hle
  omega

/-- Where the scan comes to a line, this fits nowhere exactly if it closes lines and its width is
    not on the stack. -/
theorem misfitAt_iff (hs : ComesTo text s q) (hb : isBlankText q.line = false) :
    MisfitAt text q ↔ mixesIndent q = false ∧ q.indent < s.top ∧ q.indent ∉ s.stack := by
  obtain ⟨hreach, rfl, first, hp⟩ := hs
  have hsound := sound_of_reaches hreach
  have hb' : ¬isBlankText s.line.line = true := by simp [hb]
  have hne : s.line.rest ≠ [] := fun hnil => hb' (by simp [Place.line, hnil, isBlankText])
  constructor
  · intro hmisfit
    have hmix : ¬mixesIndent s.line = true := by
      intro hmix
      obtain ⟨t, e, w, ht, -, he, hw⟩ := hmisfit
      have hstep := step_fresh_mixed hp hne hb' hmix
      obtain rfl := (Stops.failed hstep).eq (hreach.to_stop ht (.failed he))
      simpa [hp] using phase_of_misfit he hw
    have hgt : s.line.indent < s.top := by
      by_contra hgt
      obtain ⟨t, hstep, htp, htl⟩ := step_fresh_open hp hne hb' hmix hgt
      exact not_misfitAt_of_content (hreach.tail hstep) htp (htl ▸ hmisfit)
    refine ⟨by simpa using hmix, hgt, fun hmem => ?_⟩
    have hstep := step_fresh_close hp hne hb' hmix hgt
    obtain ⟨t, ht, htp, htl⟩ := reaches_content_of_mem (hsound.step hstep) rfl hmem
    have hreached := (hreach.tail hstep).trans ht
    exact not_misfitAt_of_content hreached htp (htl ▸ hmisfit)
  · rintro ⟨hmix, hgt, hmem⟩
    have hstep := step_fresh_close hp hne hb' (by simp [hmix]) hgt
    obtain ⟨t, ht, hline, he⟩ := fails_of_not_mem (hsound.step hstep) rfl hmem
    exact ⟨t, _, _, (hreach.tail hstep).trans ht, hline, he, rfl⟩

/-- A line that fits nowhere is what is wrong with the text. -/
theorem MisfitAt.scan (h : MisfitAt text q) :
    Token.scan text = .error (.between (.inconsistentIndent q.indent) q (q.drop q.indent)) := by
  obtain ⟨t, e, w, ht, rfl, he, hw⟩ := h
  obtain rfl := eq_misfit he (phase_of_misfit he hw)
  exact (scan_eq_iff text).2 ⟨t, ht, .failed he⟩

/-! ## Runs of so many steps -/

/-- The point some steps later, or where the run is stuck. -/
def run : Nat → Scanner → Scanner
  | 0, s => s
  | n + 1, s =>
    match s.step with
    | .ok t => run n t
    | .error _ => s

theorem reaches_run (n : Nat) (s : Scanner) : s.Reaches (run n s) := by
  induction n generalizing s with
  | zero => exact .refl s
  | succ n ih =>
    rw [run]
    split
    · exact .head ‹_› (ih _)
    · exact .refl s

/-- The points of a run that gets stuck. -/
theorem Reaches.eq_run {n : Nat} (h : s.Reaches t) (hn : (run n s).step = .error e) :
    ∃ m < n + 1, run m s = t := by
  induction n generalizing s with
  | zero => exact ⟨0, Nat.one_pos, ((Stops.failed hn).eq h).symm⟩
  | succ n ih =>
    cases hstep : s.step with
    | error e' => exact ⟨0, Nat.succ_pos _, ((Stops.failed hstep).eq h).symm⟩
    | ok u =>
      rcases Relation.ReflTransGen.cases_head h with rfl | ⟨v, hv, hvt⟩
      · exact ⟨0, Nat.succ_pos _, rfl⟩
      · obtain rfl : u = v := Except.ok.inj (hstep.symm.trans hv)
        obtain ⟨m, hm, rfl⟩ := ih hvt (by simpa [run, hstep] using hn)
        exact ⟨m + 1, Nat.succ_lt_succ hm, by simp [run, hstep]⟩

end Scanner

/-! ## The stack, the tokens and the errors -/

/-- The tokens of a text have an outdent for each indent, none too early, and end with the end of
    the text. -/
theorem Token.scan_balanced {text : String} {ts : List Token} (h : Token.scan text = .ok ts) :
    indents ts = outdents ts ∧ (∀ us, us <+: ts → outdents us ≤ indents us) ∧
      (∃ us t, ts = us ++ [t] ∧ t.kind = .eof ∧ ∀ u ∈ us, u.kind ≠ .eof) ∧
      ts.IsChain CanFollow := by
  obtain ⟨s, hs, hstop⟩ := (Scanner.scan_eq_iff text).1 h
  have hsound := Scanner.sound_of_reaches hs
  cases hstop with
  | done hp =>
    obtain ⟨hstack, htokens⟩ : s.stack = [0] ∧
        ∃ us t, s.tokens = us ++ [t] ∧ t.kind = .eof ∧ ∀ u ∈ us, u.kind ≠ .eof := by
      simpa only [Scanner.Ready, hp] using hsound.ready
    have hheight := hsound.balanced.height
    rw [hstack, List.length_singleton] at hheight
    exact ⟨by omega, hsound.balanced.prefixes, htokens, hsound.balanced.follows⟩

/-- Throughout a scan the widths on the stack grow from 0 inwards, one for each indent that is
    still open, and no line is nested behind a break. So a text is scanned into indents and as
    many outdents, none of them too early, and one end. A line that is not blank, and in which
    nothing of an earlier one goes on, is wrong as it fits nowhere exactly if it closes lines
    and its width is not on the stack. -/
theorem Token.scan_indentation (text : String) :
    (∀ r, Token.scan text = r ↔ (Scanner.start text).Ends r) ∧
    (∀ s, (Scanner.start text).Reaches s →
      s.stack.reverse.head? = some 0 ∧ s.stack.reverse.Pairwise (· < ·) ∧
      (s.stack.length : Int) - 1 = (indents s.tokens : Int) - outdents s.tokens ∧
      s.tokens.IsChain CanFollow) ∧
    (∀ ts, Token.scan text = .ok ts →
      indents ts = outdents ts ∧ (∀ us, us <+: ts → outdents us ≤ indents us) ∧
      (∃ us t, ts = us ++ [t] ∧ t.kind = .eof ∧ ∀ u ∈ us, u.kind ≠ .eof) ∧
      ts.IsChain CanFollow) ∧
    ∀ q ∈ lineStarts (.ofText text), isBlankText q.line = false →
      Scanner.LexedBefore text q → Scanner.Unswallowed text q →
      (∃ s, Scanner.ComesTo text s q) ∧
      ∀ s, Scanner.ComesTo text s q →
        (Scanner.MisfitAt text q ↔
          mixesIndent q = false ∧ q.indent < s.top ∧ q.indent ∉ s.stack) ∧
        (Scanner.MisfitAt text q → Token.scan text =
          .error (.between (.inconsistentIndent q.indent) q (q.drop q.indent))) := by
  refine ⟨fun r => Scanner.scan_eq_iff text, fun s hs => ?_, fun ts => scan_balanced,
    fun q hq hb hlexed hfree => ⟨Scanner.comesTo_line hq hlexed hfree, fun s hs => ?_⟩⟩
  · have hbalanced := (Scanner.sound_of_reaches hs).balanced
    have hheight := hbalanced.height
    refine ⟨?_, List.pairwise_reverse.2 hbalanced.sorted, by omega, hbalanced.follows⟩
    rw [List.head?_reverse]
    exact hbalanced.root
  · exact ⟨Scanner.misfitAt_iff hs hb, Scanner.MisfitAt.scan⟩

/-- Below a line with two columns, a line with one column is an error. Where the lines go back to
    the first column, there are as many outdents as indents. -/
theorem Token.scan_indentation_between :
    Token.scan "  b\n c" = .error (.between (.inconsistentIndent 1) ⟨4, [' ', 'c']⟩ ⟨5, ['c']⟩) ∧
      ∃ ts, Token.scan "a\n  b\nc" = .ok ts ∧ indents ts = outdents ts := by
  constructor
  · have hstuck : (Scanner.run 7 (.start "  b\n c")).step =
        .error (.between (.inconsistentIndent 1) ⟨4, [' ', 'c']⟩ ⟨5, ['c']⟩) := by decide +kernel
    have hlines : ∀ n < 8, (Scanner.run n (.start "  b\n c")).line ∈
        [Place.ofText "  b\n c", ⟨4, [' ', 'c']⟩] := by decide +kernel
    have hnext : ((lineContent (Place.ofText "  b\n c").indent ((Place.ofText "  b\n c").drop
        (Place.ofText "  b\n c").indent)).toOption.map Prod.snd) = some ⟨4, [' ', 'c']⟩ := by
      decide +kernel
    have hlexed : Scanner.LexedBefore "  b\n c" ⟨4, [' ', 'c']⟩ := by
      intro t e ht he
      have hend := ht.to_stop (Scanner.reaches_run 7 _) (.failed hstuck)
      obtain rfl := (Scanner.Stops.failed he).eq hend
      decide +kernel
    have hfree : Scanner.Unswallowed "  b\n c" ⟨4, [' ', 'c']⟩ := by
      rintro ⟨start, content, next⟩ ⟨⟨s, hs⟩, -, hc⟩ ⟨-, hbefore, hafter⟩
      obtain ⟨n, hn, rfl⟩ := hs.reached.eq_run hstuck
      have hline := hlines n hn
      rw [hs.line, List.mem_pair] at hline
      rcases hline with rfl | rfl
      · dsimp only [OpeningLine.indent] at hc
        rw [hc] at hnext
        obtain rfl : next = ⟨4, [' ', 'c']⟩ := Option.some.inj hnext
        exact Nat.lt_irrefl _ hafter
      · exact Nat.lt_irrefl _ hbefore
    have hcomes : Scanner.ComesTo "  b\n c" (Scanner.run 5 (.start "  b\n c")) ⟨4, [' ', 'c']⟩ :=
      ⟨Scanner.reaches_run 5 _, by decide +kernel, false, by decide +kernel⟩
    have hspec := ((Token.scan_indentation "  b\n c").2.2.2 ⟨4, [' ', 'c']⟩ (by decide +kernel)
      (by decide) hlexed hfree).2 _ hcomes
    exact hspec.2 (hspec.1.2 (by decide +kernel))
  · obtain ⟨ts, hts⟩ : ∃ ts, Token.scan "a\n  b\nc" = .ok ts := by
      have hok : (Token.scan "a\n  b\nc").isOk = true := by decide +kernel
      cases hts : Token.scan "a\n  b\nc" with
      | ok ts => exact ⟨ts, rfl⟩
      | error e => simp [hts, Except.isOk, Except.toBool] at hok
    exact ⟨ts, hts, ((Token.scan_indentation "a\n  b\nc").2.2.1 ts hts).1⟩

end SlotMarkup
