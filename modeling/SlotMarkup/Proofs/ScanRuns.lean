import SlotMarkup.Proofs.ScanSteps

/-!
# Runs of the scanner

The machine that scans a text step by step (`Scanner`) reads what the readers of the markup
read at once: the parts of a tag, lines, and the whole text.

* `Scanner.reads_tagHead`, `reads_tagLine`, `reads_lineContent`: the content of a line, token by
  token;
* `Scanner.opens_line`: what a line does to the stack;
* `Scanner.scan_eq_iff`: the machine ends with the outcome of the scan.
-/

namespace SlotMarkup

namespace Scanner

/-! ## Lines -/

/-- The run from `s` on comes to an error before it leaves the line. -/
def Fails (s : Scanner) (e : ScanError) : Prop :=
  ∃ t, s.Reaches t ∧ t.line = s.line ∧ t.step = .error e

theorem Fails.of_step {s : Scanner} {e : ScanError} (h : s.step = .error e) : s.Fails e :=
  ⟨s, .refl s, rfl, h⟩

/-- A run that fails later on fails, if the line is still the same. -/
theorem Fails.of_reaches {s t : Scanner} {e : ScanError} (h : s.Reaches t)
    (hline : t.line = s.line) (k : t.Fails e) : s.Fails e := by
  obtain ⟨u, hu, hul, he⟩ := k
  exact ⟨u, h.trans hu, hul.trans hline, he⟩

/-- A run that fails ends with the error. -/
theorem Fails.ends {s : Scanner} {e : ScanError} (h : s.Fails e) : s.Ends (.error e) := by
  obtain ⟨t, ht, -, he⟩ := h
  exact ⟨t, ht, .failed he⟩

/-- The scanner reads what a reader does, and goes on with `k`. -/
def Reads (s : Scanner) (r : Scan) (k : Place → Phase) : Prop :=
  match r with
  | .ok (ts, q) => s.Reaches { s with tokens := s.tokens ++ ts, phase := k q }
  | .error e => s.Fails e

section Reads

variable {s t : Scanner} {p q start : Place} {r : Scan} {k : Place → Phase} {e : ScanError}

theorem reads_of_error (h : s.step = .error e) : s.Reads (.error e) k := Fails.of_step h

/-- What is read after some tokens. -/
theorem Reads.after {ts : List Token} {phase : Phase}
    (hs : s.Reaches { s with tokens := s.tokens ++ ts, phase })
    (h : Reads { s with tokens := s.tokens ++ ts, phase } r k) : s.Reads (r.after ts) k := by
  match r, h with
  | .ok (us, q), h =>
    rw [Reads] at h
    rw [Scan.after_ok, Reads, ← List.append_assoc]
    exact hs.trans h
  | .error e, h => exact Fails.of_reaches hs rfl h

/-- A step that writes a token comes before what is read behind it. -/
theorem Reads.push {t : Token} {phase : Phase} (hs : s.step = .ok (s.push t phase))
    (h : (s.push t phase).Reads r k) : s.Reads (r.after [t]) k :=
  .after (.single hs) h

/-- A step without a token comes before the reading. -/
theorem Reads.silent {phase : Phase} (hs : s.step = .ok { s with phase })
    (h : Reads { s with phase } r k) : s.Reads r k := by
  match r, h with
  | .ok (ts, q), h => exact .head hs h
  | .error e, h => exact Fails.of_reaches (.single hs) rfl h

/-- Tokens that are read already are pushed one by one. -/
theorem reaches_writing (ts : List Token) {q : Place} (h : s.phase = .writing ts q) :
    s.Reaches { s with tokens := s.tokens ++ ts, phase := .writing [] q } := by
  induction ts generalizing s with
  | nil =>
    obtain ⟨stack, tokens, line, phase⟩ := s
    obtain rfl : phase = .writing [] q := h
    rw [List.append_nil]
    exact .refl _
  | cons t ts ih =>
    have hstep : s.step = .ok (s.push t (.writing ts q)) := by rw [step, h]
    refine .head hstep ?_
    simpa [Scanner.push] using ih (s := s.push t (.writing ts q)) rfl

/-- What a reader has read at once is pushed token by token. -/
theorem reads_at_once (h : s.step = r.map fun r => { s with phase := .writing r.1 r.2 }) :
    s.Reads r (.writing []) := by
  match r, h with
  | .ok (ts, q), h => exact .head h (reaches_writing ts rfl)
  | .error e, h => exact reads_of_error h

/-- The steps through a list of attributes are what the reader reads. -/
theorem reads_attributesFrom (h : s.phase = .attributes start p) :
    s.Reads (attributesFrom start p) .parts := by
  induction hn : p.rest.length using Nat.strongRecOn generalizing s p with
  | ind n ih =>
    subst hn
    by_cases hnil : (p.skip isSeparator).rest = []
    · rw [attributesFrom_nil hnil]
      exact reads_of_error (by rw [step, h]; exact if_pos hnil)
    by_cases hclose : (p.skip isSeparator).rest.head? = some ')'
    · obtain ⟨cs, hcs⟩ := List.head?_eq_some_iff.1 hclose
      rw [attributesFrom_close hcs]
      exact .single (by rw [step, h]; exact (if_neg hnil).trans (if_pos hclose))
    · have hstep : s.step = (readAttribute (p.skip isSeparator)).map fun r =>
          s.push r.1 (.attributes start r.2) := by
        rw [step, h]
        exact (if_neg hnil).trans (if_neg hclose)
      rw [attributesFrom_attr hnil hclose]
      cases hr : readAttribute (p.skip isSeparator) with
      | error e => exact reads_of_error (by rw [hstep, hr]; rfl)
      | ok r =>
        have hlt : r.2.rest.length < p.rest.length :=
          Nat.lt_of_lt_of_le (readAttribute_reaches hr).2 (p.reaches_skip _).length_le
        exact .push (by rw [hstep, hr]; rfl) (ih _ hlt rfl rfl)

/-- Where the run of parts of a head ends. -/
def EndsParts (p : Place) : Prop := shorthand? p = none ∧ p.rest.head? ≠ some '('

theorem reads_attributeList (h : s.phase = .parts p) (hs : shorthand? p = none)
    (hp : p.rest.head? = some '(') : s.Reads (attributeList p) .parts := by
  have hstep : s.step =
      .ok (s.push (.read .openAttributes p (p.drop 1)) (.attributes p (p.drop 1))) := by
    rw [step, h]
    simp only [hs, if_pos hp]
  exact .push hstep (reads_attributesFrom rfl)

/-- The steps behind the name of a tag are what the reader reads. -/
theorem reads_tagParts (h : s.phase = .parts p) : s.Reads (tagParts p) .parts := by
  fun_induction tagParts p generalizing s with
  | case1 p t q hs ih => exact .push (by rw [step, h]; simp only [hs]) (ih rfl)
  | case2 p hs hp e hl => exact hl ▸ reads_attributeList h hs hp
  | case3 p hs hp us q hl ih =>
    have hlist := reads_attributeList h hs hp
    rw [hl] at hlist
    exact .after hlist (ih rfl)
  | case4 p hs hp =>
    obtain ⟨stack, tokens, line, phase⟩ := s
    obtain rfl : phase = .parts p := h
    rw [Reads, List.append_nil]
    exact .refl _

/-- The reader stops only where no shorthand or list goes on. -/
theorem endsParts_of_tagParts {ts : List Token} (h : tagParts p = .ok (ts, q)) :
    EndsParts q := by
  fun_induction tagParts p generalizing ts with
  | case1 p t r hs ih =>
    obtain ⟨us, hus, -⟩ := Scan.after_eq_ok_iff.1 h
    exact ih hus
  | case2 => simp at h
  | case3 p hs hp us r hl ih =>
    obtain ⟨vs, hvs, -⟩ := Scan.after_eq_ok_iff.1 h
    exact ih hvs
  | case4 p hs hp =>
    obtain ⟨-, rfl⟩ := Prod.mk.inj (Except.ok.inj h)
    exact ⟨hs, hp⟩

/-- The steps through the head of a tag are what the reader reads. -/
theorem reads_tagHead (h : s.phase = .head p) : s.Reads (tagHead p) .parts := by
  rw [tagHead]
  split
  · rename_i name hname
    dsimp only
    split
    · rename_i hkey
      exact reads_of_error (by rw [step, h]; simp only [hname, if_pos hkey])
    · rename_i hkey
      exact .push (by rw [step, h]; simp only [hname, if_neg hkey]) (reads_tagParts rfl)
  · rename_i hname
    split
    · rename_i t q hs
      exact .push (by rw [step, h]; simp only [hname, hs]) (reads_tagParts rfl)
    · rename_i hs
      exact reads_of_error (by rw [step, h]; simp only [hname, hs])

theorem endsParts_of_tagHead {ts : List Token} (h : tagHead p = .ok (ts, q)) : EndsParts q := by
  rw [tagHead] at h
  split at h
  · dsimp only at h
    split at h
    · simp at h
    · obtain ⟨us, hus, -⟩ := Scan.after_eq_ok_iff.1 h
      exact endsParts_of_tagParts hus
  · split at h
    · obtain ⟨us, hus, -⟩ := Scan.after_eq_ok_iff.1 h
      exact endsParts_of_tagParts hus
    · simp at h

/-- No tag starts where a line ends. -/
theorem tagHead_of_atLineEnd (h : atLineEnd p = true) :
    tagHead p = .error (.here .expectedTag p) := by
  have hhead : ∀ c ∈ p.rest.head?, isBlank c = true := fun c hc => by
    obtain ⟨cs, hcs⟩ := List.head?_eq_some_iff.1 hc
    rw [atLineEnd, hcs, Bool.or_eq_true, beq_iff_eq, beq_iff_eq] at h
    rcases h with rfl | rfl <;> rfl
  have hname : tagName? p.rest = none := by
    rw [tagName?, if_neg]
    cases hp : p.rest.head? with
    | none => simp
    | some c => simp [isWord_of_isBlank (hhead c hp)]
  have hs : shorthand? p = none := shorthand?_eq_none fun c hc => by
    have := hhead c hc
    rw [sigil?.eq_def]
    split
    · simp [isBlank] at this
    · simp [isBlank] at this
    · rfl
  rw [tagHead, hname, hs]

/-- A head and the colon behind it. -/
theorem reaches_innerTag {head : List Token} (h : s.phase = .head p)
    (hp : tagHead p = .ok (head, q)) (hcolon : q.rest.head? = some ':') :
    s.Reaches { s with
      tokens := s.tokens ++ (head ++ [.read .colon q (q.drop 1)])
      phase := .head ((q.drop 1).skip isIndent) } := by
  have hhead := reads_tagHead h
  rw [hp] at hhead
  obtain ⟨hs, hparen⟩ := endsParts_of_tagHead hp
  refine Reaches.tail hhead ?_
  simp only [step, hs, if_neg hparen, if_pos hcolon, push, List.append_assoc]

/-- The steps through a line with a tag are what the reader reads, by recursion along the colons. -/
theorem reads_tagLine (h : s.phase = .head p) :
    s.Reads (tagLine s.line.indent p) (.writing []) := by
  generalize hw : s.line.indent = indent
  fun_induction tagLine indent p generalizing s with
  | case1 p e he =>
    have hhead := reads_tagHead h
    rw [he] at hhead
    exact hhead
  | case2 p head q hp hcolon r =>
    rename_i hend
    refine Fails.of_reaches (reaches_innerTag h hp hcolon) rfl ?_
    have hinner := reads_tagHead (s := { s with
      tokens := s.tokens ++ (head ++ [.read .colon q (q.drop 1)]), phase := .head r }) rfl
    rw [tagHead_of_atLineEnd hend] at hinner
    exact hinner
  | case3 p head q hp hcolon r =>
    rename_i ih
    exact .after (reaches_innerTag h hp hcolon) (ih rfl hw)
  | case4 p head q hp hcolon =>
    have hhead := reads_tagHead h
    rw [hp] at hhead
    obtain ⟨hs, hparen⟩ := endsParts_of_tagHead hp
    refine .after hhead (reads_at_once ?_)
    simp only [step, hs, if_neg hparen, if_neg hcolon, hw]

/-- The steps from the content of a line on are what the reader reads. -/
theorem reads_lineContent (h : s.phase = .content) :
    s.Reads (lineContent s.line.indent s.inner) (.writing []) := by
  by_cases hopens : opensTag s.inner.rest = true
  · have hstep : s.step = .ok { s with phase := .head s.inner } := by
      rw [step, h]
      exact if_pos hopens
    rw [lineContent_of_opensTag hopens]
    exact .silent hstep (reads_tagLine rfl)
  · refine reads_at_once ?_
    rw [step, h]
    exact if_neg hopens

end Reads

/-! ## Texts -/

section Texts

variable {s : Scanner} {levels : List Nat} {first : Bool}

theorem top_eq (hs : s.stack = levels ++ [0]) : s.top = levels.headD 0 := by
  rw [top, hs]
  cases levels <;> rfl

/-- A blank line is gone over. -/
theorem step_fresh_blank (h : s.phase = .fresh first) (hne : s.line.rest ≠ [])
    (hb : isBlankText s.line.line = true) :
    s.step = .ok { s with line := s.line.nextLine, phase := .fresh first } := by
  simp only [step, h, if_neg hne, if_pos hb]

section Fresh

variable (h : s.phase = .fresh first) (hne : s.line.rest ≠ [])
  (hb : ¬isBlankText s.line.line = true)
include h hne hb

/-- A line that mixes spaces and tabs is an error. -/
theorem step_fresh_mixed (hmix : mixesIndent s.line = true) :
    s.step = .error (.between .mixedIndent s.line s.inner) := by
  simp only [step, h, if_neg hne, if_neg hb, if_pos hmix]

theorem step_fresh_close (hmix : ¬mixesIndent s.line = true) (hgt : s.line.indent < s.top) :
    s.step = .ok { s with phase := .opening } := by
  have hlt : ¬s.top < s.line.indent := by omega
  simp only [step, h, if_neg hne, if_neg hb, if_neg hmix, if_neg hlt, if_pos hgt]

/-- A line that closes none is opened in one step. -/
theorem step_fresh_open (hmix : ¬mixesIndent s.line = true) (hgt : ¬s.line.indent < s.top) :
    ∃ t, s.step = .ok t ∧ t.phase = .content ∧ t.line = s.line := by
  simp only [step, h, if_neg hne, if_neg hb, if_neg hmix, if_neg hgt]
  split
  · exact ⟨_, rfl, rfl, rfl⟩
  · split
    · exact ⟨_, rfl, rfl, rfl⟩
    · exact ⟨_, rfl, rfl, rfl⟩

end Fresh

/-- What is wrong with a line that closes others, but is indented as none around it. -/
def misfit (s : Scanner) : ScanError :=
  .between (.inconsistentIndent s.line.indent) s.line s.inner

/-- While the line has fewer columns than the innermost block, this is closed. -/
theorem step_opening_close (h : s.phase = .opening) (hlt : s.line.indent < s.top) :
    s.step = .ok ({ s with stack := s.stack.tail }.push ⟨.outdent, s.inner.point⟩ .opening) := by
  simp only [step, h, if_pos hlt]

theorem step_opening_done (h : s.phase = .opening) (heq : s.top = s.line.indent) :
    s.step = .ok { s with phase := .content } := by
  have hlt : ¬s.line.indent < s.top := by omega
  simp only [step, h, if_neg hlt, if_pos heq]

/-- A line that has more columns than what is left open fits nowhere. -/
theorem step_opening_error (h : s.phase = .opening) (hlt : s.top < s.line.indent) :
    s.step = .error s.misfit := by
  have hgt : ¬s.line.indent < s.top := by omega
  have hne : ¬s.top = s.line.indent := by omega
  simp only [step, h, if_neg hgt, if_neg hne, misfit]

/-- The lines that are indented more deeply than the next are closed one by one. -/
theorem reaches_opening (hs : s.stack = levels ++ [0]) (h : s.phase = .opening) :
    s.Reaches { s with
      stack := levels.dropWhile (s.line.indent < ·) ++ [0]
      tokens := s.tokens ++ List.replicate
        (levels.length - (levels.dropWhile (s.line.indent < ·)).length)
        ⟨.outdent, s.inner.point⟩ } := by
  induction levels generalizing s with
  | nil =>
    rw [List.nil_append] at hs
    simp [← hs, Reaches.refl]
  | cons w levels ih =>
    by_cases hw : s.line.indent < w
    · have hstep := step_opening_close h (by rwa [top_eq hs])
      rw [hs, List.cons_append, List.tail_cons] at hstep
      have hlen : (levels.dropWhile (s.line.indent < ·)).length ≤ levels.length :=
        (List.dropWhile_suffix _).length_le
      have hrest := ih (s := { s with stack := levels ++ [0] }.push
        ⟨.outdent, s.inner.point⟩ .opening) rfl rfl
      refine .head hstep ?_
      rw [List.dropWhile_cons_of_pos (by simpa using hw), List.length_cons,
        Nat.succ_sub hlen, List.replicate_succ]
      rw [push, List.append_assoc] at hrest
      rw [h]
      exact hrest
    · rw [List.dropWhile_cons_of_neg (by simpa using hw), Nat.sub_self, List.replicate_zero,
        List.append_nil, ← hs]
      exact .refl s

theorem headD_dropWhile_le (levels : List Nat) (indent : Nat) :
    (levels.dropWhile (indent < ·)).headD 0 ≤ indent := by
  have hhead := List.head?_dropWhile_not (fun w => decide (indent < w)) levels
  cases hd : levels.dropWhile (indent < ·) with
  | nil => exact Nat.zero_le _
  | cons w ws => simpa [hd] using hhead

/-- A line that is not blank is opened as it says, or is wrong. -/
theorem opens_line (hs : s.stack = levels ++ [0]) (h : s.phase = .fresh first)
    (hne : s.line.rest ≠ []) (hb : ¬isBlankText s.line.line = true)
    (hmix : ¬mixesIndent s.line = true) :
    (openLine levels first s.line.indent).elim (s.Fails s.misfit) fun o =>
      s.Reaches { s with
        stack := o.2 ++ [0]
        tokens := s.tokens ++ o.1.map (⟨·, s.inner.point⟩)
        phase := .content } := by
  have htop := top_eq hs
  rw [openLine]
  dsimp only
  rw [← htop]
  by_cases hlt : s.top < s.line.indent
  · rw [if_pos hlt]
    refine .single ?_
    simp only [step, h, if_neg hne, if_neg hb, if_neg hmix, if_pos hlt, hs]
    rfl
  by_cases heq : s.top = s.line.indent
  · rw [if_neg hlt, if_pos heq]
    refine .single ?_
    have hgt : ¬s.line.indent < s.top := by omega
    simp only [step, h, if_neg hne, if_neg hb, if_neg hmix, if_neg hlt, if_neg hgt, ← hs]
    cases first with
    | true => simp
    | false => rfl
  · have hgt : s.line.indent < s.top := by omega
    have hstep := step_fresh_close h hne hb hmix hgt
    have hopen := Reaches.head hstep (reaches_opening (s := { s with phase := .opening }) hs rfl)
    have hle := headD_dropWhile_le levels s.line.indent
    rw [if_neg hlt, if_neg heq]
    by_cases hkept : (levels.dropWhile (s.line.indent < ·)).headD 0 = s.line.indent
    · rw [if_pos hkept, Option.elim, List.map_replicate]
      exact hopen.tail (step_opening_done rfl ((top_eq rfl).trans hkept))
    · rw [if_neg hkept, Option.elim]
      refine ⟨_, hopen, rfl, step_opening_error rfl ?_⟩
      rw [top_eq rfl]
      exact Nat.lt_of_le_of_ne hle hkept

theorem reads_opened (s : Scanner) (stack : List Nat) (tokens : List Token) :
    Reads ⟨stack, tokens, s.line, .content⟩ (lineContent s.line.indent s.inner) (.writing []) :=
  reads_lineContent rfl

section Lines

variable (hs : s.stack = levels ++ [0]) (h : s.phase = .fresh first) (hne : s.line.rest ≠ [])
  (hb : ¬isBlankText s.line.line = true) (hmix : ¬mixesIndent s.line = true)
  {opening : List Lexeme} {kept : List Nat}
  (hopen : openLine levels first s.line.indent = some (opening, kept))
include hs h hne hb hmix hopen

theorem reaches_content : s.Reaches { s with
    stack := kept ++ [0]
    tokens := s.tokens ++ opening.map (⟨·, s.inner.point⟩)
    phase := .content } := by
  have hline := opens_line hs h hne hb hmix
  rwa [hopen] at hline

/-- From one line to the next. -/
theorem reaches_nextLine {content : List Token} {next : Place}
    (hc : lineContent s.line.indent s.inner = .ok (content, next)) :
    s.Reaches ⟨kept ++ [0], s.tokens ++ (opening.map (⟨·, s.inner.point⟩) ++ content), next,
      .fresh false⟩ := by
  have hcontent := reads_opened s (kept ++ [0]) (s.tokens ++ opening.map (⟨·, s.inner.point⟩))
  rw [hc] at hcontent
  rw [← List.append_assoc]
  exact (reaches_content hs h hne hb hmix hopen).trans (Reaches.tail hcontent rfl)

/-- The content of a line can be wrong. -/
theorem fails_content {e : ScanError} (hc : lineContent s.line.indent s.inner = .error e) :
    s.Fails e := by
  have hcontent := reads_opened s (kept ++ [0]) (s.tokens ++ opening.map (⟨·, s.inner.point⟩))
  rw [hc] at hcontent
  exact .of_reaches (reaches_content hs h hne hb hmix hopen) rfl hcontent

end Lines

/-- At the end of the text all lines are closed. -/
theorem ends_closing (hs : s.stack = levels ++ [0]) (h : s.phase = .closing) :
    s.Ends (.ok (s.tokens ++ closing levels s.line)) := by
  induction levels generalizing s with
  | nil =>
    have hstep : s.step = .ok (s.push ⟨.eof, s.line.point⟩ .done) := by
      rw [step, h]
      exact if_neg (by simp [hs])
    exact ⟨_, .single hstep, .done rfl⟩
  | cons w levels ih =>
    have hstep : s.step =
        .ok ({ s with stack := levels ++ [0] }.push ⟨.outdent, s.line.point⟩ .closing) := by
      rw [step, h]
      refine (if_pos (by simp [hs])).trans ?_
      rw [hs]
      rfl
    have hrest := ih (s := { s with stack := levels ++ [0] }.push
      ⟨.outdent, s.line.point⟩ .closing) rfl rfl
    rw [push, List.append_assoc] at hrest
    exact .of_reaches (.single hstep) hrest

/-- The machine ends as the scan of the lines does. -/
theorem ends_scanLines (hs : s.stack = levels ++ [0]) (h : s.phase = .fresh first) :
    s.Ends ((scanLines levels first s.line).map (s.tokens ++ ·)) := by
  generalize hp : s.line = p
  fun_induction scanLines levels first p generalizing s with
  | case1 levels first p hnil =>
    have hstep : s.step = .ok { s with phase := .closing } := by
      rw [step, h]
      exact if_pos (hp ▸ hnil)
    exact .of_reaches (.single hstep) (hp ▸ ends_closing hs rfl)
  | case2 levels first p hne hb ih =>
    subst hp
    exact .of_reaches (.single (step_fresh_blank h hne hb)) (ih hs rfl rfl)
  | case3 levels first p hne hb =>
    rename_i hmix
    subst hp
    exact ⟨s, .refl s, .failed (step_fresh_mixed h hne hb hmix)⟩
  | case4 levels first p hne hb =>
    rename_i hmix hopen
    subst hp
    have hline := opens_line hs h hne hb hmix
    rw [hopen] at hline
    exact hline.ends
  | case5 levels first p hne hb =>
    rename_i hmix opening kept hopen e hc
    subst hp
    exact (fails_content hs h hne hb hmix hopen hc).ends
  | case6 levels first p hne hb =>
    rename_i hmix opening kept hopen content next hc ih
    subst hp
    have hnext := reaches_nextLine hs h hne hb hmix hopen hc
    have hmore := ih (s := ⟨kept ++ [0], s.tokens ++ (opening.map (⟨·, s.inner.point⟩) ++ content),
      next, .fresh false⟩) rfl rfl rfl
    have hends := Ends.of_reaches hnext hmore
    cases hr : scanLines kept false next with
    | error e => rwa [hr] at hends
    | ok more =>
      rw [hr, Except.map, List.append_assoc, List.append_assoc] at hends
      exact hends

/-- The machine ends as the scan of the text does. -/
theorem scan_eq_iff (text : String) {r : Except ScanError (List Token)} :
    Token.scan text = r ↔ (start text).Ends r := by
  have hends : (start text).Ends (Token.scan text) := by
    have hlines : (start text).Ends ((Token.scan text).map (([] : List Token) ++ ·)) :=
      ends_scanLines (s := start text) rfl rfl
    have hmap : (Token.scan text).map (([] : List Token) ++ ·) = Token.scan text := by
      cases Token.scan text <;> rfl
    exact hmap ▸ hlines
  exact ⟨fun h => h ▸ hends, fun h => hends.unique h⟩

end Texts

end Scanner

end SlotMarkup
