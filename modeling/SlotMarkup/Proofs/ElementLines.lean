import SlotMarkup.Proofs.OutlineItems

/-!
# Lines of elements

The plainest markup has an element on each line: its indentation, its name, and possibly
a space and its text (`Element.line`). Such a line is cut into one or two tokens
whatever comes after it, and nothing of it goes on in the next lines.

* `lineContent_element`: the tokens of such a line;
* `marked_of_rows`: the tokens of a text made of such lines.
-/

namespace SlotMarkup

/-! ## Elements -/

/-- The name of a tag: word characters, hyphens and colons, the first and the last of them
    word characters, and no keyword. -/
structure TagName where
  chars : List Char
  head_word : ∃ c ∈ chars.head?, isWord c = true
  last_word : ∃ c ∈ chars.getLast?, isWord c = true
  all_parts : ∀ c ∈ chars, isTagNamePart c = true
  not_keyword : String.ofList chars ∉ keywords

/-- A text on one line that is not blank. -/
structure LineText where
  chars : List Char
  no_feed : '\n' ∉ chars
  no_return : '\r' ∉ chars
  not_blank : isBlankText chars = false

/-- An element without attributes. -/
structure Element where
  name : TagName
  text : Option LineText
  /-- How much deeper the elements in this one are indented, less one. -/
  step : Nat

namespace Element

/-- The space and the text after the name of an element. -/
def suffix (e : Element) : List Char :=
  match e.text with
  | none => []
  | some t => ' ' :: t.chars

/-- The line of an element, with its indentation. -/
def line (width : Nat) (e : Element) : List Char :=
  List.replicate width ' ' ++ (e.name.chars ++ e.suffix)

/-- The lexemes of an element. -/
def lexemes (e : Element) : List Lexeme :=
  .tag (String.ofList e.name.chars) :: (e.text.map fun t => .text (String.ofList t.chars)).toList

end Element

/-- The width and the lexemes of the line of an element. -/
def Element.shape (r : Nat × Element) : Nat × List Lexeme := (r.1, r.2.lexemes)

/-- A line ends before these characters. -/
def EndsRow (cs : List Char) : Prop := ∀ c ∈ cs.head?, c = '\n'

/-! ## Lines -/

/-- A row ends where it was ended. -/
theorem takeWhile_row {cs ds : List Char} (hn : '\n' ∉ cs) (hds : EndsRow ds) :
    (cs ++ ds).takeWhile (· != '\n') = cs :=
  takeWhile_append_stop (fun c hc => by simpa using fun hcn : c = '\n' => hn (hcn ▸ hc))
    fun c hc => by simp [hds c hc]

/-- A line is what comes before a line feed, if no carriage return is in it. -/
theorem Place.line_of_append {p : Place} {cs ds : List Char} (h : p.rest = cs ++ ds)
    (hn : '\n' ∉ cs) (hr : '\r' ∉ cs) (hds : EndsRow ds) : p.line = cs := by
  rw [line, h, takeWhile_row hn hds, if_neg fun hlast => hr (List.mem_of_getLast? hlast)]

/-- The next line is behind the row and its break. -/
theorem Place.rest_nextLine_of_append {p : Place} {cs ds : List Char} (h : p.rest = cs ++ ds)
    (hn : '\n' ∉ cs) (hds : EndsRow ds) : p.nextLine.rest = ds.drop 1 := by
  rw [nextLine, rest_drop, h, takeWhile_row hn hds, ← List.drop_drop, List.drop_left]

namespace TagName

variable (n : TagName)

theorem isTagNamePart_break : isTagNamePart '\n' = false ∧ isTagNamePart '\r' = false ∧
    isTagNamePart ' ' = false := by decide

theorem no_feed : '\n' ∉ n.chars := fun h => by
  have := n.all_parts _ h
  simp [isTagNamePart_break] at this

theorem no_return : '\r' ∉ n.chars := fun h => by
  have := n.all_parts _ h
  simp [isTagNamePart_break] at this

/-- A name starts as a word does. -/
theorem exists_cons : ∃ c cs, n.chars = c :: cs ∧ isWord c = true := by
  obtain ⟨c, hc, hw⟩ := n.head_word
  obtain ⟨cs, hcs⟩ := List.head?_eq_some_iff.1 hc
  exact ⟨c, cs, hcs, hw⟩

/-- Before a character that is no part of names, the name is read as it is. -/
theorem tagName?_append {ds : List Char} (hds : ∀ c ∈ ds.head?, isTagNamePart c = false) :
    tagName? (n.chars ++ ds) = some n.chars := by
  obtain ⟨c, cs, hcs, hw⟩ := n.exists_cons
  have hhead : (n.chars ++ ds).head? = some c := by rw [hcs]; rfl
  rw [tagName?, hhead, Option.map_some, Option.getD_some, if_pos hw,
    takeWhile_append_stop n.all_parts hds]
  obtain ⟨d, hd, hdw⟩ := n.last_word
  obtain ⟨init, hinit⟩ := List.getLast?_eq_some_iff.1 hd
  rw [dropTrailing, hinit, List.reverse_append, List.reverse_singleton, List.singleton_append,
    List.dropWhile_cons_of_neg (by simp [isNameJoint_eq_false hdw])]
  simp

end TagName

namespace Element

variable (e : Element) {ds : List Char}

/-- A space or a line feed comes after the name. -/
theorem suffix_head (hds : EndsRow ds) : ∀ c ∈ (e.suffix ++ ds).head?, c = ' ' ∨ c = '\n' := by
  rw [suffix]
  split
  · exact fun c hc => .inr (hds c hc)
  · rintro c ⟨rfl⟩
    exact .inl rfl

/-- The line of an element is one line. -/
theorem notMem_line (width : Nat) : '\n' ∉ e.line width ∧ '\r' ∉ e.line width := by
  rw [line, suffix]
  split
  · simp [List.mem_replicate, e.name.no_feed, e.name.no_return]
  · rename_i t _
    simp [List.mem_replicate, e.name.no_feed, e.name.no_return, t.no_feed, t.no_return]

end Element

/-- A name is read as the head of a tag, if nothing after it belongs to the head. -/
theorem tagHead_name {n : TagName} {p : Place} {ds : List Char} (hp : p.rest = n.chars ++ ds)
    (hds : ∀ c ∈ ds.head?, isTagNamePart c = false ∧ sigil? c = none ∧ c ≠ '(') :
    tagHead p = .ok ([.read (.tag (String.ofList n.chars)) p (p.drop n.chars.length)],
      p.drop n.chars.length) := by
  have hname : tagName? p.rest = some n.chars := by
    rw [hp]
    exact n.tagName?_append fun c hc => (hds c hc).1
  have hparts : tagParts (p.drop n.chars.length) = .ok ([], p.drop n.chars.length) := by
    refine tagParts_of_head fun c hc => (hds c ?_).2
    rwa [Place.rest_drop, hp, List.drop_left] at hc
  rw [tagHead, hname]
  dsimp only
  rw [if_neg n.not_keyword, hparts, Scan.after_ok]
  rfl

section Lines

variable {e : Element} {p : Place} {ds : List Char}
  (hp : p.rest = e.name.chars ++ (e.suffix ++ ds)) (hds : EndsRow ds)
include hp hds

/-- The head of an element is its name. -/
theorem tagHead_element : tagHead p =
    .ok ([.read (.tag (String.ofList e.name.chars)) p (p.drop e.name.chars.length)],
      p.drop e.name.chars.length) :=
  tagHead_name hp fun c hc => by rcases e.suffix_head hds c hc with rfl | rfl <;> decide

/-- After the name comes the text, or nothing. -/
theorem tagBody_element (indent : Nat) : ∃ ts,
    tagBody indent (p.drop e.name.chars.length) =
      .ok (ts, (p.drop e.name.chars.length).nextLine) ∧
    ts.map Token.lexeme = (e.text.map fun t => .text (String.ofList t.chars)).toList := by
  have hrest : (p.drop e.name.chars.length).rest = e.suffix ++ ds := by
    rw [Place.rest_drop, hp, List.drop_left]
  generalize p.drop e.name.chars.length = q at hrest
  rw [Element.suffix] at hrest
  cases ht : e.text with
  | none =>
    rw [ht, List.nil_append] at hrest
    refine ⟨[], ?_, rfl⟩
    have hend : atLineEnd q = true := by
      rw [atLineEnd, hrest]
      cases ds with
      | nil => rfl
      | cons d ds => rw [hds d rfl]; rfl
    rw [tagBody, if_pos hend]
  | some t =>
    rw [ht] at hrest
    have hdrop : (q.drop 1).rest = t.chars ++ ds := by
      rw [Place.rest_drop, hrest]
      rfl
    have hline := Place.line_of_append hdrop t.no_feed t.no_return hds
    refine ⟨[.read (.text (String.ofList t.chars)) (q.drop 1) (q.drop 1).lineEnd], ?_, rfl⟩
    have hend : atLineEnd q = false := by rw [atLineEnd, hrest]; rfl
    rw [tagBody, if_neg (by simp [hend]), hrest]
    simp only [List.cons_append]
    rw [hline, if_neg (by simp [t.not_blank])]

/-- The line of an element is read to its tokens. -/
theorem tagLine_element (indent : Nat) : ∃ ts, tagLine indent p = .ok (ts, p.nextLine) ∧
    ts.map Token.lexeme = e.lexemes := by
  have hhead := tagHead_element hp hds
  obtain ⟨ts, hbody, hts⟩ := tagBody_element hp hds indent
  have hline : p.OnLine (p.drop e.name.chars.length) :=
    Place.onLine_drop hp fun c hc hn => e.name.no_feed (hn ▸ hc)
  have hcolon : (p.drop e.name.chars.length).rest.head? ≠ some ':' := by
    rw [Place.rest_drop, hp, List.drop_left]
    intro hc
    rcases e.suffix_head hds _ hc with h | h <;> simp at h
  refine ⟨.read (.tag (String.ofList e.name.chars)) p (p.drop e.name.chars.length) :: ts, ?_, ?_⟩
  · rw [tagLine_body hhead hcolon, hbody, Scan.after_ok, hline.2]
    rfl
  · rw [List.map_cons, hts]
    rfl

/-- The line of an element, without its indentation, is cut into its lexemes. -/
theorem lineContent_element (indent : Nat) : ∃ ts, lineContent indent p = .ok (ts, p.nextLine) ∧
    ts.map Token.lexeme = e.lexemes ∧ startsText p = false := by
  obtain ⟨ts, hline, hts⟩ := tagLine_element hp hds indent
  obtain ⟨c, cs, hcs, hw⟩ := e.name.exists_cons
  rw [hcs, List.cons_append] at hp
  refine ⟨ts, ?_, hts, ?_⟩
  · rw [lineContent_of_isWord hp hw, hline]
  · rw [startsText, hp, List.head?_cons]
    have hbar : c ≠ '|' := by rintro rfl; simp [isWord] at hw
    have hangle : c ≠ '<' := by rintro rfl; simp [isWord] at hw
    simp [hbar, hangle]

end Lines

/-! ## Indented lines -/

section Indented

variable {width : Nat} {e : Element} {p : Place} {ds : List Char}
  (hp : p.rest = e.line width ++ ds)
include hp

theorem takeWhile_isIndent_line : p.rest.takeWhile isIndent = List.replicate width ' ' := by
  rw [hp, Element.line, List.append_assoc]
  refine takeWhile_append_stop (fun c hc => ?_) fun c hc => ?_
  · rw [List.eq_of_mem_replicate hc]
    rfl
  · obtain ⟨d, cs, hcs, hw⟩ := e.name.exists_cons
    rw [hcs] at hc
    obtain rfl := Option.some.inj hc
    exact Bool.eq_false_iff.2 fun hi => by simp [isWord_of_isIndent hi] at hw

/-- The line of an element has the columns it was given. -/
theorem indent_line : p.indent = width := by
  rw [Place.indent, indentWidth, takeWhile_isIndent_line hp, List.length_replicate]

theorem mixesIndent_line : mixesIndent p = false := by
  rw [mixesIndent, takeWhile_isIndent_line hp]
  simp

theorem rest_drop_indent_line :
    (p.drop p.indent).rest = e.name.chars ++ (e.suffix ++ ds) := by
  rw [indent_line hp, Place.rest_drop, hp, Element.line, List.append_assoc, List.append_assoc]
  exact List.drop_left' List.length_replicate

theorem line_ne_nil : p.rest ≠ [] := by
  obtain ⟨c, cs, hcs, -⟩ := e.name.exists_cons
  rw [hp, Element.line, hcs]
  simp

theorem line_line (hds : EndsRow ds) : p.line = e.line width :=
  Place.line_of_append hp (e.notMem_line width).1 (e.notMem_line width).2 hds

/-- The line of an element is not blank. -/
theorem not_blank_line (hds : EndsRow ds) : isBlankText p.line = false := by
  obtain ⟨c, cs, hcs, hw⟩ := e.name.exists_cons
  refine Bool.eq_false_iff.2 fun hb => ?_
  have hc : c ∈ p.line := by
    rw [line_line hp hds, Element.line, hcs]
    simp
  simp [isWord_of_isBlank (List.all_eq_true.1 hb c hc)] at hw

/-- What is scanned from such a line on: its own tokens, and those of the next lines. -/
theorem lineContent_line (hds : EndsRow ds) : ∃ ts next,
    lineContent p.indent (p.drop p.indent) = .ok (ts, next) ∧ next.rest = ds.drop 1 ∧
    ts.map Token.lexeme = e.lexemes ∧ startsText (p.drop p.indent) = false := by
  obtain ⟨ts, hts, hlex, htext⟩ := lineContent_element (rest_drop_indent_line hp) hds p.indent
  have hline : p.OnLine (p.drop p.indent) := p.onLine_skip rfl
  refine ⟨ts, _, hts, ?_, hlex, htext⟩
  rw [hline.2]
  exact Place.rest_nextLine_of_append hp (e.notMem_line width).1 hds

end Indented

/-! ## Rows -/

/-- A text of these lines, with or without a line feed at its end. -/
def IsRows (rows : List (List Char)) (cs : List Char) : Prop :=
  cs = joinLines rows ∨ cs = joinLines rows ++ ['\n']

theorem IsRows.cons {l : List Char} {rows : List (List Char)} {cs : List Char}
    (h : IsRows (l :: rows) cs) : ∃ ds, cs = l ++ ds ∧ EndsRow ds ∧ IsRows rows (ds.drop 1) := by
  cases rows with
  | nil =>
    rcases h with rfl | rfl
    · exact ⟨[], (List.append_nil _).symm, by simp [EndsRow], .inl rfl⟩
    · exact ⟨['\n'], rfl, by simp [EndsRow], .inl rfl⟩
  | cons m rows =>
    rcases h with rfl | rfl
    · exact ⟨'\n' :: joinLines (m :: rows), rfl, by simp [EndsRow], .inl rfl⟩
    · exact ⟨'\n' :: (joinLines (m :: rows) ++ ['\n']), by simp [joinLines_cons_cons],
        by simp [EndsRow], .inr rfl⟩

/-- Lines of these widths can be opened one after the other. -/
def Opens : List Nat → Bool → List Nat → Prop
  | _, _, [] => True
  | levels, first, width :: widths =>
    ∃ ls inner, openLine levels first width = some (ls, inner) ∧ Opens inner false widths

/-- What is known of an opening line from how it was written. -/
def OpeningLine.shape (l : OpeningLine) : Nat × List Lexeme :=
  (l.indent, l.content.map Token.lexeme)

/-- Nothing is misplaced if no line of text comes before an indentation. -/
theorem misplaced_opening {b : Bool} {ls : List Lexeme} {span : Span} {ms : List Marked}
    (hb : b = true → ls.head? ≠ some .indent) (hms : ∀ b, misplaced b ms = []) :
    misplaced b (ls.map (fun l => Marked.plain ⟨l, span⟩) ++ ms) = [] := by
  induction ls generalizing b with
  | nil => exact hms b
  | cons l ls ih =>
    have hl : (b && (Marked.plain ⟨l, span⟩).token.kind == .indent) = false := by
      cases b with
      | false => rfl
      | true =>
        have hne : l ≠ .indent := fun hl => hb rfl (by rw [hl]; rfl)
        cases l <;> first | rfl | exact absurd rfl hne
    rw [List.map_cons, List.cons_append, misplaced, hl]
    exact ih (by simp [Marked.plain])

/-- At the end of a text all its lines are closed. -/
theorem marked_of_end (levels : List Nat) (first : Bool) {p : Place} (h : IsRows [] p.rest) :
    openingLinesFrom p = .ok [] ∧
      ∃ q, markedLines levels first p = .ok ((closing levels q).map Marked.plain) := by
  rcases h with h | h
  · have hp : p.rest = [] := h
    exact ⟨by rw [openingLinesFrom, dif_pos hp], p, by rw [markedLines, dif_pos hp]⟩
  · have hp : p.rest = ['\n'] := h
    have hne : p.rest ≠ [] := by simp [hp]
    have hblank : isBlankText p.line = true := by simp [Place.line, hp, isBlankText]
    have hnext : p.nextLine.rest = [] := by simp [Place.nextLine, hp]
    refine ⟨?_, p.nextLine, ?_⟩
    · rw [openingLinesFrom, dif_neg hne, if_pos hblank, openingLinesFrom, dif_pos hnext]
    · rw [markedLines, dif_neg hne, if_pos hblank, markedLines, dif_pos hnext]

/-- A line that is not blank comes with the tokens of its indentation and its content before
    the lines after it. -/
theorem markedLines_cons {levels inner : List Nat} {first : Bool} {p next : Place}
    {ls : List Lexeme} {content : List Token} (hp : p.rest ≠ [])
    (hb : isBlankText p.line = false) (hmix : mixesIndent p = false)
    (hopen : openLine levels first p.indent = some (ls, inner))
    (hc : lineContent p.indent (p.drop p.indent) = .ok (content, next)) :
    markedLines levels first p = (markedLines inner false next).map fun more =>
      ls.map (fun l => Marked.plain ⟨l, (p.drop p.indent).point⟩) ++
        (content.map (⟨·, startsText (p.drop p.indent)⟩) ++ more) := by
  rw [markedLines, dif_neg hp, if_neg (by simp [hb])]
  dsimp only
  rw [if_neg (by simp [hmix]), hopen]
  dsimp only
  split
  · rename_i hc'
    exact absurd (hc'.symm.trans hc) (by simp)
  · rename_i content' next' hc'
    obtain ⟨rfl, rfl⟩ := Prod.mk.inj (Except.ok.inj (hc'.symm.trans hc))
    rfl

/-- Only a line that is indented by more than the one before starts with an indentation. -/
theorem head_opening {levels inner : List Nat} {first : Bool} {width : Nat} {ls : List Lexeme}
    (h : openLine levels first width = some (ls, inner)) (hw : width ≤ levels.headD 0) :
    ls.head? ≠ some .indent := by
  rcases openLine_cases h with ⟨hl, -, -⟩ | ⟨-, rfl, -⟩ | ⟨n, -, -, rfl, -⟩
  · omega
  · cases first <;> simp
  · cases n <;> simp [List.replicate_succ]

/-- The tokens of a text of lines with elements, if the lines can be opened. -/
theorem marked_of_rows {rows : List (Nat × Element)} {levels : List Nat} {first b : Bool}
    {p : Place} (hp : IsRows (rows.map fun r => r.2.line r.1) p.rest)
    (ho : Opens levels first (rows.map Prod.fst))
    (hb : b = true → ∀ r ∈ rows.head?, r.1 ≤ levels.headD 0) :
    ∃ ms lines, markedLines levels first p = .ok ms ∧ misplaced b ms = [] ∧
      openingLinesFrom p = .ok lines ∧
      lines.map OpeningLine.shape = rows.map Element.shape := by
  induction rows generalizing levels first b p with
  | nil =>
    obtain ⟨hlines, q, hms⟩ := marked_of_end levels first hp
    exact ⟨_, [], hms, misplaced_closing b levels q, hlines, rfl⟩
  | cons r rows ih =>
    obtain ⟨width, e⟩ := r
    obtain ⟨ds, hrest, hds, hmore⟩ := hp.cons
    obtain ⟨ls, inner, hopen, hinner⟩ := ho
    obtain ⟨ts, next, hts, hnext, hlex, htext⟩ := lineContent_line hrest hds
    obtain ⟨ms, lines, hms, hm, hlines, hshapes⟩ :=
      ih (b := false) (hnext ▸ hmore) hinner (by simp)
    have hindent := indent_line hrest
    have hopen' : openLine levels first p.indent = some (ls, inner) := hindent.symm ▸ hopen
    obtain ⟨hne, hkind⟩ := lineContent_kind_ne_indent hts
    have hmarked := markedLines_cons (line_ne_nil hrest) (not_blank_line hrest hds)
      (mixesIndent_line hrest) hopen' hts
    have hopening := openingLinesFrom_cons (line_ne_nil hrest) (not_blank_line hrest hds) hts
    rw [hms] at hmarked
    rw [hlines] at hopening
    refine ⟨_, _, hmarked, ?_, hopening, ?_⟩
    · refine misplaced_opening (fun hbt => ?_) fun b' => ?_
      · exact head_opening hopen (hb hbt _ rfl)
      · rw [htext, misplaced_append hne hkind]
        exact hm
    · rw [List.map_cons, hshapes, OpeningLine.shape, OpeningLine.indent, hindent, hlex]
      rfl

end SlotMarkup
