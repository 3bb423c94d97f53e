import SlotMarkup.Proofs.DocumentGrammar
import SlotMarkup.Proofs.Outline

/-!
# The tokens of an outline

If no indentation is misplaced, the tokens of a text are those of an outline of its
lines. At any point of the text there are lines still to come at the depth reached, and
at every depth around it. They are as many forests as there are depths, the innermost
first, and what their tokens can be is described by `Unread`.

* `outlined_of_marked`: the tokens from a line on, whatever was before it;
* `unread_of_scanMarked`: the tokens of a text are those of one forest, whose roots are
  not indented.
-/

namespace SlotMarkup

/-- The tokens of the lines that are still to come at a depth of nesting, and at each
    depth around it. -/
inductive Unread : List (Forest OpeningLine) → List Token → Prop
  | eof {t} (h : t.kind = .eof) : Unread [.nil] [t]
  | outdent {f fs t ts} (h : t.kind = .outdent) (more : Unread (f :: fs) ts) :
      Unread (.nil :: f :: fs) (t :: ts)
  | newline {fs t ts} (h : t.kind = .newline) (more : Unread fs ts) : Unread fs (t :: ts)
  | single {l t f fs ts} (hl : l.content = [t]) (h : t.kind = .text ∨ t.kind = .comment)
      (more : Unread (f :: fs) ts) : Unread (.cons l .nil f :: fs) (t :: ts)
  | chain {l f fs ts} (h : IsChain l.content) (hts : EndsLine ts) (more : Unread (f :: fs) ts) :
      Unread (.cons l .nil f :: fs) (l.content ++ ts)
  | nested {l i g f fs ts} (h : IsChain l.content) (hi : i.kind = .indent) (hg : g ≠ .nil)
      (more : Unread (g :: f :: fs) ts) : Unread (.cons l g f :: fs) (l.content ++ i :: ts)

/-- The tokens directly after a line, where `below` are the lines nested below it. -/
inductive UnreadAfter (b : Before) :
    Forest OpeningLine → List (Forest OpeningLine) → List Token → Prop
  | line {fs ts} (hts : b ≠ .start → EndsLine ts) (more : Unread fs ts) : UnreadAfter b .nil fs ts
  | nested {below fs i ts} (hb : b = .tag) (hi : i.kind = .indent) (hbelow : below ≠ .nil)
      (more : Unread (below :: fs) ts) : UnreadAfter b below fs (i :: ts)

/-- The roots of forests are indented by these widths, forest by forest. -/
def Levels : List Nat → List (Forest OpeningLine) → Prop
  | [], [] => True
  | width :: widths, f :: fs => f.Level width ∧ Levels widths fs
  | _, _ => False

/-- Lines at several depths still to come, in the order of the text. -/
def allLines (fs : List (Forest OpeningLine)) : List OpeningLine := fs.flatMap Forest.toList

/-- After a line whose own levels are `levels` come these lines with these tokens. -/
def Outlined (levels : List Nat) (b : Before) (lines : List OpeningLine) (ts : List Token) : Prop :=
  ∃ below fs, below.toList ++ allLines fs = lines ∧ UnreadAfter b below fs ts ∧
    (∃ width, levels.headD 0 < width ∧ below.Level width) ∧ Levels (levels ++ [0]) fs

/-- At a depth with these levels come these lines with these tokens, the first line
    directly. -/
def OutlinedFrom (levels : List Nat) (lines : List OpeningLine) (ts : List Token) : Prop :=
  ∃ f fs, f ≠ .nil ∧ allLines (f :: fs) = lines ∧ Unread (f :: fs) ts ∧
    Levels (levels ++ [0]) (f :: fs)

/-! ## Closed depths -/

/-- Depths at which no line is still to come. -/
theorem Unread.outdents {fs : List (Forest OpeningLine)} {f : Forest OpeningLine} {ts : List Token}
    (h : Unread (f :: fs) ts) (n : Nat) (span : Span) :
    Unread (List.replicate n .nil ++ f :: fs) (List.replicate n ⟨.outdent, span⟩ ++ ts) := by
  induction n with
  | zero => exact h
  | succ n ih =>
    cases n with
    | zero => exact .outdent rfl ih
    | succ n => exact .outdent rfl ih

theorem Levels.closed {widths : List Nat} {fs : List (Forest OpeningLine)} (h : Levels widths fs)
    (outer : List Nat) : Levels (outer ++ widths) (List.replicate outer.length .nil ++ fs) := by
  induction outer with
  | nil => exact h
  | cons width outer ih => exact ⟨trivial, ih⟩

@[simp] theorem allLines_closed (n : Nat) (fs : List (Forest OpeningLine)) :
    allLines (List.replicate n .nil ++ fs) = allLines fs := by
  induction n with
  | zero => rfl
  | succ n ih => exact ih

theorem outlined_closing (levels : List Nat) (p : Place) {b : Before} :
    Outlined levels b [] (closing levels p) := by
  have hend : Unread [.nil] [⟨.eof, p.point⟩] := .eof rfl
  refine ⟨.nil, List.replicate levels.length .nil ++ [.nil], ?_, ?_,
    ⟨levels.headD 0 + 1, Nat.lt_succ_self _, trivial⟩,
    Levels.closed (show Levels [0] [.nil] from ⟨trivial, trivial⟩) levels⟩
  · rw [allLines_closed]
    rfl
  · refine .line (fun _ t ht => .inr (mem_closing (List.mem_of_mem_head? ht))) ?_
    simpa [closing, List.map_const'] using hend.outdents levels.length p.point

/-! ## Lines -/

/-- A line takes its place before the next lines of its depth. -/
theorem outlinedFrom_cons {levels : List Nat} {l : OpeningLine} {lines : List OpeningLine}
    {ts : List Token} {below : Forest OpeningLine} {fs : List (Forest OpeningLine)}
    (hl : levels.headD 0 = l.indent) (hlines : below.toList ++ allLines fs = lines)
    (hbelow : ∃ width, levels.headD 0 < width ∧ below.Level width)
    (hfs : Levels (levels ++ [0]) fs)
    (hunread : ∀ f gs, fs = f :: gs → Unread (.cons l below f :: gs) ts) :
    OutlinedFrom levels (l :: lines) ts := by
  obtain ⟨widths, hwidths⟩ : ∃ widths, levels ++ [0] = l.indent :: widths := by
    rw [← hl]
    cases levels <;> exact ⟨_, rfl⟩
  rw [hwidths] at hfs
  rw [hl] at hbelow
  cases fs with
  | nil => exact hfs.elim
  | cons f gs =>
    refine ⟨_, gs, by simp, by simp [← hlines, allLines, Forest.toList], hunread f gs rfl, ?_⟩
    rw [hwidths]
    exact ⟨⟨rfl, hbelow, hfs.1⟩, hfs.2⟩

/-- A line before what follows it. -/
theorem Outlined.content {levels : List Nat} {p q : Place} {l : OpeningLine} {ts : List Token}
    (hc : lineContent l.indent p = .ok (l.content, q)) (hl : levels.headD 0 = l.indent)
    (h : ∀ b : Before, b ≠ .start → b.isText = startsText p →
      (b = .comment → q.rest = [] ∨ (isBlankText q.line = false ∧ q.indent ≤ l.indent)) →
      ∃ lines, openingLinesFrom q = .ok lines ∧ Outlined levels b lines ts) :
    ∃ lines, openingLinesFrom q = .ok lines ∧
      OutlinedFrom levels (l :: lines) (l.content ++ ts) := by
  rcases lineContent_cases hc with ⟨hp, t, ht, hk⟩ | ⟨hp, ⟨t, ht, hk⟩, hstop⟩ | ⟨hp, hchain⟩
  · obtain ⟨lines, hq, below, fs, hlines, hunread, hbelow, hfs⟩ :=
      h .text (by simp) hp.symm (by simp)
    refine ⟨lines, hq, outlinedFrom_cons hl hlines hbelow hfs ?_⟩
    rintro f gs rfl
    cases hunread with
    | line _ more => exact ht ▸ .single ht (.inl hk) more
    | nested hb => simp at hb
  · obtain ⟨lines, hq, below, fs, hlines, hunread, hbelow, hfs⟩ :=
      h .comment (by simp) hp.symm fun _ => hstop
    refine ⟨lines, hq, outlinedFrom_cons hl hlines hbelow hfs ?_⟩
    rintro f gs rfl
    cases hunread with
    | line _ more => exact ht ▸ .single ht (.inr hk) more
    | nested hb => simp at hb
  · obtain ⟨lines, hq, below, fs, hlines, hunread, hbelow, hfs⟩ :=
      h .tag (by simp) hp.symm (by simp)
    refine ⟨lines, hq, outlinedFrom_cons hl hlines hbelow hfs ?_⟩
    rintro f gs rfl
    cases hunread with
    | line hts more => exact .chain hchain (hts (by simp)) more
    | nested _ hi hne more => exact .nested hchain hi hne more

/-- How a line opens depends on what is before it. -/
theorem Outlined.opening {levels inner : List Nat} {first : Bool} {indent : Nat} {ls : List Lexeme}
    {b : Before} {lines : List OpeningLine} {ts : List Token} (span : Span)
    (hopen : openLine levels first indent = some (ls, inner))
    (hfirst : first = true ↔ b = .start) (hb : b = .comment → indent ≤ levels.headD 0)
    (hplaced : b.isText = true → ls ≠ [.indent]) (h : OutlinedFrom inner lines ts) :
    Outlined levels b lines (ls.map (⟨·, span⟩) ++ ts) := by
  obtain ⟨f, fs, hne, hlines, hunread, hfs⟩ := h
  have hnone : ∃ width, levels.headD 0 < width ∧ Forest.Level width .nil :=
    ⟨_, Nat.lt_succ_self _, trivial⟩
  rcases openLine_cases hopen with ⟨hl, rfl, rfl⟩ | ⟨hl, rfl, rfl⟩ | ⟨n, hl, hn, rfl, rfl, hi⟩
  · -- An indentation, which has its place only after a tag. A comment has taken all
    -- lines that are indented more deeply.
    have htag : b = .tag := by
      cases b with
      | start => exact absurd rfl (hplaced rfl)
      | text => exact absurd rfl (hplaced rfl)
      | comment => exact absurd (hb rfl) (Nat.not_le_of_lt hl)
      | tag => rfl
    exact ⟨f, fs, hlines, .nested htag rfl hne hunread, ⟨indent, hl, hfs.1⟩, hfs.2⟩
  · -- A line break, unless this is the first line.
    refine ⟨.nil, f :: fs, hlines, ?_, hnone, hfs⟩
    cases first with
    | true => exact .line (fun hs => absurd (hfirst.1 rfl) hs) hunread
    | false =>
      refine .line (fun _ t ht => ?_) (.newline rfl hunread)
      obtain rfl := Option.some.inj ht
      exact .inl rfl
  · -- At least one line is closed, as the levels change.
    obtain ⟨k, rfl⟩ : ∃ k, n = k + 1 := Nat.exists_eq_succ_of_ne_zero (by
      rintro rfl
      rw [List.drop_zero] at hi
      omega)
    have hlen : (levels.take (k + 1)).length = k + 1 := List.length_take_of_le hn
    have hlevels := hfs.closed (levels.take (k + 1))
    rw [← List.append_assoc, List.take_append_drop, hlen] at hlevels
    refine ⟨.nil, List.replicate (k + 1) .nil ++ f :: fs, ?_, ?_, hnone, hlevels⟩
    · rw [allLines_closed]
      exact hlines
    · rw [List.map_replicate]
      refine .line (fun _ t ht => ?_) (hunread.outdents (k + 1) span)
      obtain rfl := Option.some.inj ht
      exact .inr (.inl rfl)

/-- What comes later is not misplaced either. -/
theorem misplaced_later {afterText : Bool} {ms ns : List Marked}
    (h : misplaced afterText (ms ++ ns) = []) : ∃ b, misplaced b ns = [] := by
  induction ms generalizing afterText with
  | nil => exact ⟨_, h⟩
  | cons m ms ih => exact ih (List.append_eq_nil_iff.1 h).2

theorem outlined_of_marked {levels : List Nat} {first : Bool} {p : Place} {ms : List Marked}
    {b : Before} (h : markedLines levels first p = .ok ms) (hm : misplaced b.isText ms = [])
    (hfirst : first = true ↔ b = .start)
    (hb : b = .comment →
      p.rest = [] ∨ (isBlankText p.line = false ∧ p.indent ≤ levels.headD 0)) :
    ∃ lines, openingLinesFrom p = .ok lines ∧ Outlined levels b lines (ms.map Marked.token) := by
  fun_induction markedLines levels first p generalizing ms b with
  | case1 levels first p hp =>
    obtain rfl := Except.ok.inj h
    refine ⟨[], by rw [openingLinesFrom, dif_pos hp], ?_⟩
    simpa [Function.comp_def, Marked.plain] using outlined_closing levels p
  | case2 levels first p hp hblank ih =>
    rw [openingLinesFrom, dif_neg hp, if_pos hblank]
    refine ih h hm hfirst fun hc => ?_
    rcases hb hc with hp' | ⟨hl, -⟩
    · exact absurd hp' hp
    · simp [hblank] at hl
  | case3 => simp at h
  | case4 => simp at h
  | case5 => simp at h
  | case6 levels first p hp hblank start hmix opening inner hopen content next hc =>
    rename_i ih
    obtain ⟨more, hmore, rfl⟩ := map_eq_ok_iff.1 h
    obtain ⟨hne, hkind⟩ := lineContent_kind_ne_indent hc
    have hinner : inner.headD 0 = p.indent := by
      rcases openLine_cases hopen with ⟨-, -, rfl⟩ | ⟨hl, -, rfl⟩ | ⟨n, -, -, -, -, hl⟩
      · rfl
      · exact hl
      · exact hl
    obtain ⟨_, hlater⟩ := misplaced_later hm
    rw [misplaced_append hne hkind] at hlater
    -- The line itself is what the next lines come after.
    obtain ⟨lines, hlines, hfrom⟩ :=
      Outlined.content (l := ⟨p, content, next⟩) hc hinner fun b' hb' htext hq =>
        ih hmore (htext ▸ hlater) (by simpa using hb') (hinner ▸ hq)
    refine ⟨⟨p, content, next⟩ :: lines, ?_, ?_⟩
    · rw [openingLinesFrom_cons hp (by simpa using hblank) hc, hlines]
      rfl
    · have hopened := Outlined.opening start.point hopen hfirst (fun hcomment => ?_) ?_ hfrom
      · simpa [Function.comp_def, Marked.plain] using hopened
      · rcases hb hcomment with hp' | ⟨-, hle⟩
        · exact absurd hp' hp
        · exact hle
      · rintro htext rfl
        simp [misplaced, Marked.plain, Token.kind, Lexeme.kind, htext] at hm

/-- The tokens of a text without a misplaced indentation are those of its outline. -/
theorem unread_of_scanMarked {text : String} {ms : List Marked}
    (h : Token.scanMarked text = .ok ms) (hm : misplaced true ms = []) :
    ∃ lines f, openingLines text = .ok lines ∧ f.toList = lines ∧ f.Level 0 ∧
      Unread [f] (ms.map Marked.token) := by
  obtain ⟨lines, hlines, below, fs, hall, hunread, -, hfs⟩ :=
    outlined_of_marked (b := .start) h hm (by simp) (by simp)
  generalize ms.map Marked.token = ts at hunread ⊢
  cases hunread with
  | nested hb => simp at hb
  | line _ more =>
    cases fs with
    | nil => exact hfs.elim
    | cons f gs =>
      cases gs with
      | nil => exact ⟨lines, f, hlines, by simpa [allLines, Forest.toList] using hall, hfs.1, more⟩
      | cons g gs => exact hfs.2.elim

end SlotMarkup
