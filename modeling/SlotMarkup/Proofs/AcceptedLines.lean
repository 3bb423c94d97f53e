import SlotMarkup.Proofs.ElementLines

/-!
# The lines of accepted texts

A text that can be cut into opening lines is accepted if and only if these can come one after
the other (`Accepted`): none of them is indented with both tabs and spaces, each is indented
more deeply than the line before it or as one of the enclosing lines, and more deeply only if
the line before it is one of a tag or a comment. Nothing else of the lines matters.

* `Block.parse_iff_accepted`: the lines tell whether a text is accepted;
* `shows_of_accepted`, `accepted_of_parse`: what is parsed has the shape of their outline.
-/

namespace SlotMarkup

/-- Whether a line is one of text: a piped line or a line of literal markup. -/
def OpeningLine.isText (l : OpeningLine) : Bool := startsText (l.start.drop l.indent)

/-- Lines that can come one after the other, where the enclosing lines are indented by
    `levels`; `afterText` says that there is no line before them, or one of text. -/
def Accepted : List Nat → (first afterText : Bool) → List OpeningLine → Prop
  | _, _, _, [] => True
  | levels, first, afterText, l :: ls =>
    mixesIndent l.start = false ∧ (afterText = true → l.indent ≤ levels.headD 0) ∧
      ∃ opening inner, openLine levels first l.indent = some (opening, inner) ∧
        Accepted inner false l.isText ls

section Lines

variable {levels inner : List Nat} {first b : Bool} {indent : Nat} {ls : List Lexeme}

/-- A line starts with an indentation only where it is indented more deeply. -/
theorem misplaced_line {mark : Bool} {content : List Token} {ms : List Marked} (span : Span)
    (hopen : openLine levels first indent = some (ls, inner)) (hne : content ≠ [])
    (hkind : ∀ t ∈ content, t.kind ≠ .indent) :
    misplaced b (ls.map (fun l => Marked.plain ⟨l, span⟩) ++ (content.map (⟨·, mark⟩) ++ ms)) = [] ↔
      (b = true → indent ≤ levels.headD 0) ∧ misplaced mark ms = [] := by
  by_cases hl : levels.headD 0 < indent
  · have hls : ls = [.indent] := by
      rcases openLine_cases hopen with ⟨-, h, -⟩ | ⟨h, -⟩ | ⟨n, h, -⟩
      · exact h
      all_goals omega
    have hb : (b = true → indent ≤ levels.headD 0) ↔ b = false :=
      ⟨fun h => Bool.eq_false_iff.2 fun hb => absurd hl (Nat.not_lt_of_le (h hb)),
        fun h hb => absurd (h.symm.trans hb) (by simp)⟩
    rw [hls, hb, List.map_singleton, List.singleton_append, misplaced, Marked.plain,
      misplaced_append hne hkind]
    cases b <;> simp [Token.kind, Lexeme.kind]
  · have hplain : ∀ l ∈ ls, l.kind ≠ .indent := by
      rcases openLine_cases hopen with ⟨h, -⟩ | ⟨-, rfl, -⟩ | ⟨n, -, -, rfl, -⟩
      · exact absurd h hl
      · cases first <;> simp [Lexeme.kind]
      · simp [Lexeme.kind]
    have hhead : ∀ b, misplaced b (ls.map (fun l => Marked.plain ⟨l, span⟩) ++
        (content.map (⟨·, mark⟩) ++ ms)) = misplaced mark ms := by
      clear hopen
      induction ls with
      | nil => exact fun _ => misplaced_append hne hkind
      | cons l ls ih =>
        intro b
        obtain ⟨hl, hls⟩ := List.forall_mem_cons.1 hplain
        have hfirst : (b && (Marked.plain ⟨l, span⟩).token.kind == .indent) = false := by
          simp [Marked.plain, Token.kind, hl]
        rw [List.map_cons, List.cons_append, misplaced, hfirst, ih hls]
        rfl
    rw [hhead]
    exact ⟨fun h => ⟨fun _ => Nat.le_of_not_lt hl, h⟩, And.right⟩

/-- The lines of an accepted text can come one after the other. -/
theorem accepted_of_marked {p : Place} {ms : List Marked}
    (h : markedLines levels first p = .ok ms) (hm : misplaced b ms = []) :
    ∃ lines, openingLinesFrom p = .ok lines ∧ Accepted levels first b lines := by
  fun_induction markedLines levels first p generalizing ms b with
  | case1 levels first p hp => exact ⟨[], by rw [openingLinesFrom, dif_pos hp], trivial⟩
  | case2 levels first p hp hblank ih =>
    rw [openingLinesFrom, dif_neg hp, if_pos hblank]
    exact ih h hm
  | case3 => simp at h
  | case4 => simp at h
  | case5 => simp at h
  | case6 levels first p hp hblank start hmix opening inner hopen content next hc =>
    rename_i ih
    obtain ⟨more, hmore, rfl⟩ := map_eq_ok_iff.1 h
    obtain ⟨hne, hkind⟩ := lineContent_kind_ne_indent hc
    obtain ⟨hplace, hmore'⟩ := (misplaced_line _ hopen hne hkind).1 hm
    obtain ⟨lines, hlines, haccepted⟩ := ih hmore hmore'
    refine ⟨⟨p, content, next⟩ :: lines, ?_, by simpa using hmix, hplace, opening, inner, hopen,
      haccepted⟩
    rw [openingLinesFrom_cons hp (by simpa using hblank) hc, hlines]
    rfl

/-- Where lines can come one after the other, no indentation is misplaced. -/
theorem marked_of_accepted {p : Place} {lines : List OpeningLine}
    (h : openingLinesFrom p = .ok lines) (ha : Accepted levels first b lines) :
    ∃ ms, markedLines levels first p = .ok ms ∧ misplaced b ms = [] := by
  fun_induction openingLinesFrom p generalizing levels first b lines with
  | case1 p hp =>
    exact ⟨_, by rw [markedLines, dif_pos hp], misplaced_closing b levels p⟩
  | case2 p hp hblank ih =>
    rw [markedLines, dif_neg hp, if_pos hblank]
    exact ih h ha
  | case3 => simp at h
  | case4 p hp hblank content next hc ih =>
    obtain ⟨more, hmore, rfl⟩ := map_eq_ok_iff.1 h
    obtain ⟨hmix, hplace, opening, inner, hopen, haccepted⟩ := ha
    obtain ⟨hne, hkind⟩ := lineContent_kind_ne_indent hc
    obtain ⟨ms, hms, hm⟩ := ih hmore haccepted
    rw [markedLines_cons hp (by simpa using hblank) hmix hopen hc, hms]
    exact ⟨_, rfl, (misplaced_line _ hopen hne hkind).2 ⟨hplace, hm⟩⟩

end Lines

/-! ## Texts -/

section Texts

variable {text : String}

/-- A text of such lines is parsed, and what is parsed has the shape of their outline. -/
theorem shows_of_accepted {lines : List OpeningLine} (h : openingLines text = .ok lines)
    (ha : Accepted [] true true lines) : ∃ block f, Block.parse text = .ok block ∧
      f.toList = lines ∧ f.Level 0 ∧ Shows false f block.nodes := by
  obtain ⟨ms, hms, hm⟩ := marked_of_accepted h ha
  obtain ⟨block, hblock, lines', f, hlines', hf, hlevel, hshows⟩ := shows_of_scanMarked hms hm
  obtain rfl := Except.ok.inj (h.symm.trans hlines')
  exact ⟨block, f, hblock, hf, hlevel, hshows⟩

/-- A text that is parsed is made of such lines. -/
theorem accepted_of_parse {block : Block} (h : Block.parse text = .ok block) :
    ∃ lines f, openingLines text = .ok lines ∧ Accepted [] true true lines ∧
      f.toList = lines ∧ f.Level 0 ∧ Shows false f block.nodes := by
  obtain ⟨ms, hms, hm⟩ := misplaced_of_parse h
  obtain ⟨lines, hlines, ha⟩ := accepted_of_marked hms hm
  obtain ⟨block', f, hblock', hf, hlevel, hshows⟩ := shows_of_accepted hlines ha
  obtain rfl := Except.ok.inj (h.symm.trans hblock')
  exact ⟨lines, f, hlines, ha, hf, hlevel, hshows⟩

/-- Whether a text is accepted depends on its opening lines alone. -/
theorem Block.parse_iff_accepted : (∃ block, Block.parse text = .ok block) ↔
    ∃ lines, openingLines text = .ok lines ∧ Accepted [] true true lines := by
  constructor
  · rintro ⟨block, h⟩
    obtain ⟨lines, f, hlines, ha, -⟩ := accepted_of_parse h
    exact ⟨lines, hlines, ha⟩
  · rintro ⟨lines, hlines, ha⟩
    obtain ⟨block, f, h, -⟩ := shows_of_accepted hlines ha
    exact ⟨block, h⟩

end Texts

end SlotMarkup
