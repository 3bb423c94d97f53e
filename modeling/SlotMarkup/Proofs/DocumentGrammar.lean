import SlotMarkup.Proofs.LineGrammar

/-!
# The tokens of a text

The tokens of a text are those of its lines, with the changes of indentation
between them. An indentation belongs to the line before it, which has to be one
of a tag. It is *misplaced* if there is no line before it, or a line of text
(`misplaced`); to tell the latter from the text of a tag, the tokens are marked
as they are read (`markedLines`).

What can follow in the tokens at a depth of nesting, up to the first misplaced
indentation, is described by a grammar (`Following`).

* `scan_eq_marked`: marking changes no token;
* `after_of_scanMarked`: the tokens of every text are in the grammar.
-/

namespace SlotMarkup

/-! ## Misplaced indentation -/

/-- A token, and whether it is the text of a piped line or of literal markup. -/
structure Marked where
  token : Token
  lineText : Bool

/-- The token marked as no line of text. -/
def Marked.plain (t : Token) : Marked := ⟨t, false⟩

/-- The tokens of the lines from `p` on, marked. -/
def markedLines (levels : List Nat) (first : Bool) (p : Place) : Except ScanError (List Marked) :=
  if _hp : p.rest = [] then .ok ((closing levels p).map Marked.plain)
  else if isBlankText p.line then markedLines levels first p.nextLine
  else
    let start := p.drop p.indent
    if mixesIndent p then .error (.between .mixedIndent p start)
    else match openLine levels first p.indent with
      | none => .error (.between (.inconsistentIndent p.indent) p start)
      | some (opening, inner) =>
        match _hc : lineContent p.indent start with
        | .error e => .error e
        | .ok (content, next) =>
          (markedLines inner false next).map fun more =>
            opening.map (fun l => .plain ⟨l, start.point⟩) ++
              (content.map (⟨·, startsText start⟩) ++ more)
termination_by p.rest.length
decreasing_by
  · exact Place.nextLine_lt _hp
  · exact Nat.lt_of_lt_of_le (lineContent_reaches _hc).2 (p.length_drop_le p.indent)

/-- The tokens of a text, marked. -/
def Token.scanMarked (text : String) : Except ScanError (List Marked) :=
  markedLines [] true (.ofText text)

/-- The indentations among the tokens that come directly after a line of text, and
    the one at the start if nothing but such a line (`afterText`) or the start of the
    text is before it. -/
def misplaced (afterText : Bool) : List Marked → List Token
  | [] => []
  | m :: ms =>
    (if afterText && m.token.kind == .indent then [m.token] else []) ++ misplaced m.lineText ms

/-- Without their marks, the tokens are those that are scanned. -/
theorem scanLines_eq_marked (levels : List Nat) (first : Bool) (p : Place) :
    scanLines levels first p = (markedLines levels first p).map (·.map Marked.token) := by
  fun_induction markedLines levels first p with
  | case1 levels first p hp =>
    rw [scanLines, dif_pos hp]
    simp [Except.map, Function.comp_def, Marked.plain]
  | case2 levels first p hp hb ih => rw [scanLines, dif_neg hp, if_pos hb, ih]
  | case3 levels first p hp hb start hmix =>
    rw [scanLines, dif_neg hp, if_neg hb, if_pos hmix]
    rfl
  | case4 levels first p hp hb start hmix hopen =>
    rw [scanLines, dif_neg hp, if_neg hb, if_neg hmix, hopen]
    rfl
  | case5 levels first p hp hb start hmix opening inner hopen e hc =>
    rw [scanLines, dif_neg hp, if_neg hb, if_neg hmix, hopen]
    dsimp only
    split
    · rename_i e' hc'
      rw [Except.error.inj (hc'.symm.trans hc)]
      rfl
    · rename_i hc'
      exact absurd (hc'.symm.trans hc) (by simp)
  | case6 levels first p hp hb start hmix opening inner hopen content next hc =>
    rename_i ih
    rw [scanLines, dif_neg hp, if_neg hb, if_neg hmix, hopen]
    dsimp only
    split
    · rename_i hc'
      exact absurd (hc'.symm.trans hc) (by simp)
    · rename_i content' next' hc'
      obtain ⟨rfl, rfl⟩ := Prod.mk.inj (Except.ok.inj (hc'.symm.trans hc))
      rw [ih]
      cases markedLines inner false next' with
      | error e => rfl
      | ok ms => simp [Except.map, Function.comp_def, Marked.plain, start]

/-- Marking the tokens of a text changes none of them. -/
theorem scan_eq_marked (text : String) :
    Token.scan text = (Token.scanMarked text).map (·.map Marked.token) :=
  scanLines_eq_marked [] true (.ofText text)

/-! ## The grammar -/

/-- A line ends before these tokens. -/
def EndsLine (ts : List Token) : Prop :=
  ∀ t ∈ ts.head?, t.kind = .newline ∨ t.kind = .outdent ∨ t.kind = .eof

/-- The tokens that can follow at a depth of nesting, and the first misplaced
    indentation among them. What is after it does not matter. -/
inductive Following : Nat → List Token → Option Span → Prop
  | eof {t} (h : t.kind = .eof) : Following 0 [t] none
  | outdent {d t ts m} (h : t.kind = .outdent) (more : Following d ts m) :
      Following (d + 1) (t :: ts) m
  | newline {d t ts m} (h : t.kind = .newline) (more : Following d ts m) : Following d (t :: ts) m
  | comment {d t ts m} (h : t.kind = .comment) (more : Following d ts m) : Following d (t :: ts) m
  | text {d t ts m} (h : t.kind = .text) (more : Following d ts m) : Following d (t :: ts) m
  | stray {d t i ts} (h : t.kind = .text) (hi : i.kind = .indent) :
      Following d (t :: i :: ts) (some i.span)
  | chain {d cs ts m} (h : IsChain cs) (hts : EndsLine ts) (more : Following d ts m) :
      Following d (cs ++ ts) m
  | nested {d cs i ts m} (h : IsChain cs) (hi : i.kind = .indent) (more : Following (d + 1) ts m) :
      Following d (cs ++ i :: ts) m

/-- What is before a line: nothing, or the line before it. -/
inductive Before
  | start
  | text
  | comment
  | tag

/-- Whether an indentation is misplaced here. -/
def Before.isText : Before → Bool
  | start | text => true
  | comment | tag => false

/-- The tokens that can follow directly after a line. -/
inductive After (b : Before) (d : Nat) : List Token → Option Span → Prop
  | line {ts m} (hts : b ≠ .start → EndsLine ts) (more : Following d ts m) : After b d ts m
  | nested {i ts m} (hb : b = .tag) (hi : i.kind = .indent) (more : Following (d + 1) ts m) :
      After b d (i :: ts) m
  | stray {i ts} (hb : b.isText = true) (hi : i.kind = .indent) :
      After b d (i :: ts) (some i.span)

/-! ## The tokens of a text are in the grammar -/

/-- There is no indentation among the tags of a line. -/
theorem IsChain.kind_ne_indent {ts : List Token} (h : IsChain ts) : ∀ t ∈ ts, t.kind ≠ .indent := by
  intro t ht hk
  rcases h.mem t ht with hs | hm
  · have := hs.kind
    simp [hk, Kind.startsTag] at this
  · simp [hk, chainKinds] at hm

theorem IsChain.ne_nil {ts : List Token} (h : IsChain ts) : ts ≠ [] := by
  cases h with
  | last hh hb => cases hh; simp
  | colon hh hc more => simp

/-- Tokens without an indentation hide what was before them. -/
theorem misplaced_append {afterText mark : Bool} {ts : List Token} {ms : List Marked}
    (hne : ts ≠ [])
    (h : ∀ t ∈ ts, t.kind ≠ .indent) :
    misplaced afterText (ts.map (⟨·, mark⟩) ++ ms) = misplaced mark ms := by
  induction ts generalizing afterText with
  | nil => simp at hne
  | cons t ts ih =>
    have ht : (t.kind == .indent) = false := by simpa using h t List.mem_cons_self
    rw [List.map_cons, List.cons_append, misplaced, ht, Bool.and_false]
    cases ts with
    | nil => rfl
    | cons u us => exact ih (List.cons_ne_nil u us) fun v hv => h v (List.mem_cons_of_mem _ hv)

/-- Levels are closed by outdents, and a text by its end. -/
theorem mem_closing {levels : List Nat} {p : Place} {t : Token} (h : t ∈ closing levels p) :
    t.kind = .outdent ∨ t.kind = .eof := by
  rcases List.mem_append.1 h with h | h
  · obtain ⟨l, -, rfl⟩ := List.mem_map.1 h
    exact .inl rfl
  · rw [List.mem_singleton.1 h]
    exact .inr rfl

/-- Nothing is misplaced where levels are closed. -/
theorem misplaced_closing (afterText : Bool) (levels : List Nat) (p : Place) :
    misplaced afterText ((closing levels p).map Marked.plain) = [] := by
  have hkind : ∀ t ∈ closing levels p, t.kind ≠ .indent := fun t ht => by
    rcases mem_closing ht with h | h <;> simp [h]
  have h : misplaced afterText ((closing levels p).map Marked.plain ++ []) = misplaced false [] :=
    misplaced_append (by simp [closing]) hkind
  rwa [List.append_nil] at h

/-- What closes levels ends a line. -/
theorem endsLine_closing (levels : List Nat) (p : Place) :
    EndsLine (((closing levels p).map Marked.plain).map Marked.token) := fun t ht => by
  have := List.mem_of_mem_head? ht
  rw [List.map_map, show Marked.token ∘ Marked.plain = id from rfl, List.map_id] at this
  exact .inr (mem_closing this)

/-- At the end of a text as many levels are closed as are open. -/
theorem following_closing (levels : List Nat) (p : Place) :
    Following levels.length (closing levels p) none := by
  induction levels with
  | nil => exact .eof rfl
  | cons l levels ih => exact .outdent rfl ih

/-- A line before what follows it. -/
theorem After.content {indent d : Nat} {p q : Place} {content ts : List Token} {m : Option Span}
    (hc : lineContent indent p = .ok (content, q))
    (h : ∀ b : Before, b ≠ .start → b.isText = startsText p →
      (b = .comment → q.rest = [] ∨ (isBlankText q.line = false ∧ q.indent ≤ indent)) →
      After b d ts m) :
    Following d (content ++ ts) m := by
  rcases lineContent_cases hc with ⟨hp, t, rfl, ht⟩ | ⟨hp, ⟨t, rfl, ht⟩, hq⟩ | ⟨hp, hchain⟩
  -- Only after a line of text can an indentation be misplaced.
  · cases h .text (by simp) hp.symm (by simp) with
    | line _ more => exact .text ht more
    | nested hb => simp at hb
    | stray _ hi => exact .stray ht hi
  · cases h .comment (by simp) hp.symm (fun _ => hq) with
    | line _ more => exact .comment ht more
    | nested hb => simp at hb
    | stray hb => simp [Before.isText] at hb
  · cases h .tag (by simp) hp.symm (by simp) with
    | line hts more => exact .chain hchain (hts (by simp)) more
    | nested _ hi more => exact .nested hchain hi more
    | stray hb => simp [Before.isText] at hb

/-- Each line has a token, and no indentation among its own. -/
theorem lineContent_kind_ne_indent {indent : Nat} {p q : Place} {content : List Token}
    (h : lineContent indent p = .ok (content, q)) :
    content ≠ [] ∧ ∀ t ∈ content, t.kind ≠ .indent := by
  rcases lineContent_cases h with ⟨-, t, rfl, ht⟩ | ⟨-, ⟨t, rfl, ht⟩, -⟩ | ⟨-, hchain⟩
  · simp [ht]
  · simp [ht]
  · exact ⟨hchain.ne_nil, hchain.kind_ne_indent⟩

/-- Outdents lead back to an outer level. -/
theorem Following.outdents {d : Nat} {ts : List Token} {m : Option Span} (h : Following d ts m)
    (n : Nat) (span : Span) :
    Following (d + n) (List.replicate n ⟨.outdent, span⟩ ++ ts) m := by
  induction n with
  | zero => exact h
  | succ n ih => exact .outdent rfl ih

/-- How a line opens depends on what is before it. -/
theorem After.opening {levels inner : List Nat} {first : Bool} {indent : Nat} {ls : List Lexeme}
    {b : Before} {ms : List Marked} (span : Span)
    (hopen : openLine levels first indent = some (ls, inner))
    (hfirst : first = true ↔ b = .start) (hb : b = .comment → indent ≤ levels.headD 0)
    (hms : misplaced b.isText ms = misplaced false ms)
    (h : Following inner.length (ms.map Marked.token) ((misplaced false ms).head?.map Token.span)) :
    After b levels.length ((ls.map (fun l => Marked.plain ⟨l, span⟩) ++ ms).map Marked.token)
      ((misplaced b.isText (ls.map (fun l => Marked.plain ⟨l, span⟩) ++ ms)).head?.map
        Token.span) := by
  rcases openLine_cases hopen with ⟨hl, rfl, rfl⟩ | ⟨hl, rfl, rfl⟩ | ⟨n, hl, hn, rfl, rfl, hi⟩
  · -- An indentation, which has its place only after a tag. A comment has taken all
    -- lines that are indented more deeply.
    cases b with
    | start => exact .stray rfl rfl
    | text => exact .stray rfl rfl
    | comment => exact absurd (hb rfl) (Nat.not_le_of_lt hl)
    | tag => exact .nested rfl rfl h
  · -- A line break, unless this is the first line.
    cases first with
    | true => exact .line (fun hs => absurd (hfirst.1 rfl) hs) (hms ▸ h)
    | false =>
      refine .line (fun _ t ht => ?_) ?_
      · obtain rfl := Option.some.inj ht
        exact .inl rfl
      · simpa [misplaced, Marked.plain, Token.kind, Lexeme.kind] using
          Following.newline (t := ⟨.newline, span⟩) rfl h
  · -- At least one line is closed, as the levels change.
    obtain ⟨k, rfl⟩ : ∃ k, n = k + 1 := Nat.exists_eq_succ_of_ne_zero (by
      rintro rfl
      rw [List.drop_zero] at hi
      omega)
    have hlen : levels.length = (levels.drop (k + 1)).length + (k + 1) := by
      rw [List.length_drop]
      omega
    have hout := h.outdents (k + 1) span
    have hplain : (List.replicate (k + 1) Lexeme.outdent).map (fun l => Marked.plain ⟨l, span⟩) =
        (List.replicate (k + 1) ⟨.outdent, span⟩).map (⟨·, false⟩) := by
      rw [List.map_replicate, List.map_replicate]
      rfl
    rw [hplain, misplaced_append (by simp) (by simp [Token.kind, Lexeme.kind]), List.map_append,
      List.map_map, show Marked.token ∘ (⟨·, false⟩) = id from rfl, List.map_id, hlen]
    refine .line (fun _ t ht => ?_) hout
    obtain rfl := Option.some.inj ht
    exact .inr (.inl rfl)

/-- What is scanned from a line on can follow the line before it. The induction is on how lines
    are scanned. -/
theorem after_of_marked {levels : List Nat} {first : Bool} {p : Place} {ms : List Marked}
    {b : Before} (h : markedLines levels first p = .ok ms) (hfirst : first = true ↔ b = .start)
    (hb : b = .comment →
      p.rest = [] ∨ (isBlankText p.line = false ∧ p.indent ≤ levels.headD 0)) :
    After b levels.length (ms.map Marked.token) ((misplaced b.isText ms).head?.map Token.span) := by
  fun_induction markedLines levels first p generalizing ms b with
  | case1 levels first p hp =>
    obtain rfl := Except.ok.inj h
    rw [misplaced_closing]
    refine .line (fun _ => endsLine_closing levels p) ?_
    simpa [Function.comp_def, Marked.plain] using following_closing levels p
  | case2 levels first p hp hblank ih =>
    refine ih h hfirst fun hc => ?_
    rcases hb hc with hp' | ⟨hl, -⟩
    · exact absurd hp' hp
    · simp [hblank] at hl
  | case3 => simp at h
  | case4 => simp at h
  | case5 => simp at h
  | case6 levels first p hp hblank start hmix opening inner hopen content next hc =>
    rename_i ih
    obtain ⟨more, hmore, rfl⟩ := map_eq_ok_iff.1 h
    obtain ⟨hne, hkind⟩ := lineContent_kind_ne_indent hc
    have hinner : inner.headD 0 = p.indent := by
      rcases openLine_cases hopen with ⟨-, -, rfl⟩ | ⟨hl, -, rfl⟩ | ⟨n, -, -, -, -, hl⟩
      · rfl
      · exact hl
      · exact hl
    -- The line itself is what the next lines come after.
    have hcontent : Following inner.length (content ++ more.map Marked.token)
        ((misplaced (startsText start) more).head?.map Token.span) := by
      refine After.content hc fun b' hb' htext hq => ?_
      rw [← htext]
      exact ih hmore (by simpa using hb') (hinner ▸ hq)
    refine After.opening _ hopen hfirst (fun hcomment => ?_) ?_ ?_
    · rcases hb hcomment with hp' | ⟨-, hle⟩
      · exact absurd hp' hp
      · exact hle
    · rw [misplaced_append hne hkind, misplaced_append hne hkind]
    · rw [misplaced_append hne hkind, List.map_append, List.map_map]
      simpa [Function.comp_def] using hcontent

/-- The tokens of a text are in the grammar, up to the first misplaced indentation. -/
theorem after_of_scanMarked {text : String} {ms : List Marked}
    (h : Token.scanMarked text = .ok ms) :
    After .start 0 (ms.map Marked.token) ((misplaced true ms).head?.map Token.span) :=
  after_of_marked (b := .start) h (by simp) (by simp)

end SlotMarkup
