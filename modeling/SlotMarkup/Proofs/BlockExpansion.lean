import SlotMarkup.Proofs.KindGrammar
import SlotMarkup.Proofs.Lookahead

/-!
# Block expansion

A colon puts one more tag into a tag on the same line. That is another way to write a tag
nested below the line: the tokens of the inner tag can be put between an indent and an outdent
instead, and the colon left out (`Block.toValue_expand`). Only what is nested below the line
as well is in the way. It goes into the inner tag, and would come after the outdent then.

The two lists of tokens are read side by side (`Expansion.At`). They are the same before the
colon and after the inner tag. What is between is read by one tag alone, the one that has the
colon behind its head.

* `Expansion.Meets.reads`: how it is read;
* `Expansion.At.reads`: everything around it is read alike.
-/

namespace SlotMarkup

/-! ## Two lists of tokens -/

/-- A tag behind a colon, below which no more is nested, and what puts it below a line. -/
structure Expansion where
  colon : Token
  indent : Token
  outdent : Token
  /-- The tokens of the inner tag. -/
  tag : List Token
  /-- The tokens after it. -/
  after : List Token
  hcolon : colon.kind = .colon
  hindent : indent.kind = .indent
  houtdent : outdent.kind = .outdent
  hafter : nextKind after ≠ .indent
  is_tag : ∃ is d, Reads .tag ⟨colon.span, tag ++ after⟩ is d ∧ d.rest = after

namespace Expansion

variable (x : Expansion)

/-- The inner tag on the line. -/
def inline : List Token := x.colon :: (x.tag ++ x.after)

/-- The inner tag below the line. -/
def nested : List Token := x.indent :: (x.tag ++ x.outdent :: x.after)

/-- Two cursors before the same token, which is before the inner tag or after it. -/
def At (c c' : Cursor) : Prop :=
  (∃ t p, c.rest = t :: (p ++ x.inline) ∧ c'.rest = t :: (p ++ x.nested)) ∨
    (c.rest.length ≤ x.after.length ∧ c'.rest = c.rest)

/-- Two cursors right before the inner tag. -/
def Meets (c c' : Cursor) : Prop := c.rest = x.inline ∧ c'.rest = x.nested

variable {x} {c c' d : Cursor}

theorem At.current (h : x.At c c') : c'.current = c.current := by
  rcases h with ⟨t, p, hc, hc'⟩ | ⟨-, h⟩
  · exact (Cursor.current_of_rest hc').trans (Cursor.current_of_rest hc).symm
  · rw [Cursor.current, h, Cursor.current]

theorem At.kind (h : x.At c c') : c'.kind = c.kind := congrArg Token.kind h.current

/-- Cursors that agree up to the tag are before it or at it. -/
theorem at_or_meets {p : List Token} (hc : c.rest = p ++ x.inline) (hc' : c'.rest = p ++ x.nested) :
    x.At c c' ∨ x.Meets c c' := by
  cases p with
  | nil => exact .inr ⟨hc, hc'⟩
  | cons t p => exact .inl (.inl ⟨t, p, hc, hc'⟩)

/-- At every token the two cursors move on together, up to the inner tag. -/
theorem At.advance (h : x.At c c') (hk : c.kind ≠ .eof) (hne : c.advance.rest ≠ x.inline) :
    x.At c.advance c'.advance := by
  rcases h with ⟨t, p, hc, hc'⟩ | ⟨hle, h⟩
  · rw [Cursor.kind_of_rest hc] at hk
    exact (at_or_meets (Cursor.rest_advance_of_rest hc hk)
      (Cursor.rest_advance_of_rest hc' hk)).resolve_right fun hm => hne hm.1
  · exact .inr ⟨Nat.le_trans c.advance_le hle,
      Cursor.rest_advance_of_rest (h.trans (Cursor.rest_advance hk)) hk⟩

/-- Before the tag, the cursors go on together. -/
theorem At.advance_of_lexeme {l : Lexeme} (h : x.At c c') (hl : c.current.lexeme = l)
    (hk : l.kind ≠ .eof) (hne : c.advance.rest ≠ x.inline) : x.At c.advance c'.advance :=
  h.advance (Cursor.kind_ne_eof hl hk) hne

/-- Only a colon starts what is replaced. -/
theorem rest_ne_inline (hk : c.kind ≠ .colon) : c.rest ≠ x.inline := fun hc =>
  hk ((Cursor.kind_of_rest hc).trans x.hcolon)

/-- No item starts with a colon. -/
theorem rest_ne_of_items {stop : Kind} {a : Bool} {is : List Item}
    (h : Reads (.items stop a) c is d) : c.rest ≠ x.inline := by
  refine rest_ne_inline fun hk => ?_
  have hl : c.current.lexeme = .colon := Lexeme.eq_of_kind (m := .colon) hk rfl
  cases h with
  | stop h | newline h | text h | comment h => simp [hl] at h
  | child hc => simp [hk, Kind.startsTag] at hc

theorem rest_ne_of_textBlock {is : List Item} (h : textBlockItems c = .ok (is, d)) :
    c.rest ≠ x.inline := by
  refine rest_ne_inline fun hk => ?_
  have hl : c.current.lexeme = .colon := Lexeme.eq_of_kind (m := .colon) hk rfl
  rw [textBlockItems.eq_def, hl] at h
  simp at h

/-- Tokens without a colon are passed on both sides. -/
theorem At.passes {ps : List Token} (h : x.At c c') (hc : c.rest = ps ++ d.rest)
    (hcolon : ∀ t ∈ ps, t.kind ≠ .colon) :
    ∃ ts, c'.rest = ps ++ ts ∧ ∀ d' : Cursor, d'.rest = ts → x.At d d' ∨ x.Meets d d' := by
  rcases h with ⟨t, p, hp, hp'⟩ | ⟨hle, h⟩
  · rw [← List.cons_append] at hp hp'
    obtain ⟨q, hq, hd⟩ : ∃ q, t :: p = ps ++ q ∧ d.rest = q ++ x.inline := by
      rcases List.append_eq_append_iff.1 (hc.symm.trans hp) with ⟨q, hq⟩ | ⟨q, hq, hq'⟩
      · exact ⟨q, hq⟩
      · cases q with
        | nil => exact ⟨[], by simpa using hq.symm, by simpa using hq'.symm⟩
        | cons u q =>
          obtain ⟨hu, -⟩ := List.cons.inj hq'
          exact absurd (hu ▸ x.hcolon) (hcolon u (by simp [hq]))
    exact ⟨q ++ x.nested, by rw [hp', hq, List.append_assoc], fun d' hd' => at_or_meets hd hd'⟩
  · refine ⟨d.rest, h.trans hc, fun d' hd' => .inl (.inr ⟨?_, hd'⟩)⟩
    rw [hc, List.length_append] at hle
    omega

/-- Behind a head the two cursors can meet the inner tag. -/
theorem At.readHead {head : TagHead} (h : x.At c c') (hc : c.kind.startsTag = true)
    (hh : readHead c = .ok (head, d)) :
    ∃ d', SlotMarkup.readHead c' = .ok (head, d') ∧ (x.At d d' ∨ x.Meets d d') := by
  obtain ⟨hs, hrest, hkinds⟩ := readHead_passes hh
  obtain ⟨ts, hts, hd⟩ := h.passes hrest fun t ht hk => by simpa [hk, headKinds] using hkinds t ht
  have hnext : nextKind ts ∉ partKinds := by
    rcases hd ⟨.nowhere, ts⟩ rfl with hat | ⟨-, hm⟩
    · have hk : nextKind ts = d.kind := hat.kind
      exact hk ▸ readHead_end hh
    · rw [show ts = x.nested from hm]
      simp [nested, nextKind, x.hindent, partKinds]
  obtain ⟨d', hd', hrest'⟩ := readHead_repeats hc hh ⟨hs, hrest, hts⟩ hnext
  exact ⟨d', hd', hd d' hrest'⟩

/-- A block of text before the tag is read alike. -/
theorem At.textBlockItems {is : List Item} (h : x.At c c')
    (hread : textBlockItems c = .ok (is, d)) (hd : d.rest ≠ x.inline) :
    ∃ d', SlotMarkup.textBlockItems c' = .ok (is, d') ∧ x.At d d' := by
  obtain ⟨bs, hrest, hkinds⟩ := textBlockItems_passes hread
  obtain ⟨ts, hts, hat⟩ := h.passes hrest fun t ht hk => by simpa [hk, blockKinds] using hkinds t ht
  obtain ⟨d', hd', hrest'⟩ := textBlockItems_repeats hread ⟨bs, hrest, hts⟩
  exact ⟨d', hd', (hat d' hrest').resolve_right fun hm => hd hm.1⟩

/-! ## What is read -/

/-- The inner tag is all that is read behind the colon, and all that is read below the line. -/
theorem Meets.reads {e : Cursor} {is js : List Item} (h : x.Meets c c')
    (hi : Reads .inline c is d) (hn : Reads .nested d js e) :
    ∃ ks e', Reads .inline c' [] c' ∧ Reads .nested c' ks e' ∧ x.At e e' ∧
      Rewraps (is ++ js) ks := by
  obtain ⟨hc, hc'⟩ := h
  have hk : c.kind = .colon := (Cursor.kind_of_rest hc).trans x.hcolon
  have hk' : c'.kind = .indent := (Cursor.kind_of_rest hc').trans x.hindent
  have hadv : c.advance = ⟨x.colon.span, x.tag ++ x.after⟩ := by
    have hrest := Cursor.rest_advance_of_rest hc (by simp [x.hcolon])
    rw [Cursor.advance, if_neg (by simp [Cursor.atEnd, hk])] at hrest ⊢
    rw [Cursor.current_of_rest hc, ← hrest]
  have hadv' : c'.advance.rest = x.tag ++ x.outdent :: x.after :=
    Cursor.rest_advance_of_rest hc' (by simp [x.hindent])
  obtain ⟨ks, f, htag, hf⟩ := x.is_tag
  -- Behind the colon is the inner tag.
  obtain ⟨rfl, rfl⟩ : ks = is ∧ f = d := by
    have hl : c.current.lexeme = .colon := Lexeme.eq_of_kind (m := .colon) hk rfl
    have hread := hi.read
    rw [Goal.read_inline_colon hl, hadv, if_pos (Goal.startsTag_of_read_tag htag.read),
      htag.read] at hread
    exact Prod.mk.inj (Except.ok.inj hread)
  -- Nothing more is nested.
  obtain ⟨rfl, rfl⟩ : js = [] ∧ e = f := by
    have hread := hn.read
    rw [Goal.read_nested_none (by rw [Cursor.kind_eq_nextKind hf]; exact x.hafter)] at hread
    obtain ⟨rfl, rfl⟩ := Prod.mk.inj (Except.ok.inj hread)
    exact ⟨rfl, rfl⟩
  -- It is the same before the outdent, and the only item there.
  have hrepeats : Repeats ⟨x.colon.span, x.tag ++ x.after⟩ e c'.advance (x.outdent :: x.after) :=
    ⟨x.tag, by rw [hf], hadv'⟩
  obtain ⟨ls, g, hg, hgrest, hls⟩ := htag.repeats hrepeats (.inr x.houtdent)
  have hgk : g.kind = .outdent := (Cursor.kind_of_rest hgrest).trans x.houtdent
  have hstop : Reads (.items .outdent false) g [] g :=
    .stop (.inr (Lexeme.eq_of_kind (m := .outdent) hgk rfl)) hgk
  refine ⟨_, g.advance, .noInline (by simp [hk']), .nested hk'
    (.child (Goal.startsTag_of_read_tag hg.read) hg hstop) hgk, .inr ⟨Nat.le_of_eq ?_, ?_⟩, ?_⟩
  · rw [hf]
  · rw [hf]
    exact Cursor.rest_advance_of_rest hgrest (by simp [x.houtdent])
  · rw [List.append_nil, List.append_nil]
    exact hls.trans (.symm (.block ls _))

/-- What is read of the one list is read of the other, with the inner tag in a block of its
    own. -/
theorem At.reads {g : Goal} {is : List Item} (h : Reads g c is d) (hc : x.At c c')
    (hd : d.rest ≠ x.inline) : ∃ js d', Reads g c' js d' ∧ x.At d d' ∧ Rewraps is js := by
  induction h generalizing c' with
  | stop h hs =>
    exact ⟨[], c', .stop (by rwa [hc.current]) (hc.kind.trans hs), hc, .refl _⟩
  | newline hl more ih =>
    obtain ⟨js, d', hd', hat, hjs⟩ :=
      ih (hc.advance_of_lexeme hl (by simp [Lexeme.kind]) (rest_ne_of_items more)) hd
    exact ⟨js, d', .newline (hc.current ▸ hl) hd', hat, hjs⟩
  | text hl more ih =>
    obtain ⟨js, d', hd', hat, hjs⟩ :=
      ih (hc.advance_of_lexeme hl (by simp [Lexeme.kind]) (rest_ne_of_items more)) hd
    exact ⟨_, d', .text (hc.current ▸ hl) hd', hat, hc.current ▸ .append (.refl _) hjs⟩
  | comment hl more ih =>
    obtain ⟨js, d', hd', hat, hjs⟩ :=
      ih (hc.advance_of_lexeme hl (by simp [Lexeme.kind]) (rest_ne_of_items more)) hd
    exact ⟨_, d', .comment (hc.current ▸ hl) hd', hat, hc.current ▸ .append (.refl [_]) hjs⟩
  | child _ _ more ih ih' =>
    obtain ⟨is', d', hd', hat, his⟩ := ih hc (rest_ne_of_items more)
    obtain ⟨js', e', he', hat', hjs⟩ := ih' hat hd
    exact ⟨_, e', .child (Goal.startsTag_of_read_tag hd'.read) hd' he', hat', .append his hjs⟩
  | tag hs hh content below ih ih' =>
    obtain ⟨b', hb', hat | hmeets⟩ := hc.readHead hs hh
    · -- Nothing is read at a colon behind the content of a tag, so that the tag ends there.
      have hne : _ ≠ x.inline := fun hcolon => hd <| by
        have hread := below.read
        rw [Goal.read_nested_none (by rw [Cursor.kind_of_rest hcolon, x.hcolon]; simp)] at hread
        rw [← (Prod.mk.inj (Except.ok.inj hread)).2, hcolon]
      obtain ⟨is', d', hd', hat', his⟩ := ih hat hne
      obtain ⟨js', e', he', hat'', hjs⟩ := ih' hat' hd
      exact ⟨_, e', .tag (hc.kind ▸ hs) hb' hd' he', hat'', .tag _ _ (.append his hjs) _ _ _ _⟩
    · obtain ⟨ks, e', hi, hn, hat, hks⟩ := hmeets.reads content below
      exact ⟨_, e', .tag (hc.kind ▸ hs) hb' hi hn, hat, .tag _ _ hks _ _ _ _⟩
  | colon hl hs _ ih =>
    obtain ⟨js, d', hd', hat, hjs⟩ := ih (hc.advance_of_lexeme hl (by simp [Lexeme.kind])
      (rest_ne_inline (by rintro hk; simp [hk, Kind.startsTag] at hs))) hd
    exact ⟨js, d', .colon (hc.current ▸ hl) (Goal.startsTag_of_read_tag hd'.read) hd', hat, hjs⟩
  | block hl lines =>
    obtain ⟨d', hd', hat⟩ := (hc.advance_of_lexeme hl (by simp [Lexeme.kind])
      (rest_ne_of_textBlock lines)).textBlockItems lines hd
    exact ⟨_, d', .block (hc.current ▸ hl) hd', hat, .refl _⟩
  | inlineText hl =>
    exact ⟨_, _, .inlineText (hc.current ▸ hl), hc.advance_of_lexeme hl (by simp [Lexeme.kind]) hd,
      hc.current ▸ .refl _⟩
  | noInline hk => exact ⟨[], c', .noInline (by rwa [hc.kind]), hc, .refl _⟩
  | nested hi below houtdent ih =>
    obtain ⟨js, d', hd', hat, hjs⟩ :=
      ih (hc.advance (by simp [hi]) (rest_ne_of_items below)) (rest_ne_inline (by simp [houtdent]))
    exact ⟨_, _, .nested (hc.kind.trans hi) hd' (hat.kind.trans houtdent),
      hat.advance (by simp [houtdent]) hd, .trans (.block _ _) (.trans hjs (.symm (.block _ _)))⟩
  | noNested hi => exact ⟨[], c', .noNested (by rwa [hc.kind]), hc, .refl _⟩

end Expansion

/-! ## Trees -/

/-- Block expansion means nesting. A tag behind a colon, below which no more is nested, can be
    put between an indent and an outdent instead. Then the template is still accepted, and its
    tree is the same. -/
theorem Block.toValue_expand {front tag after : List Token} {colon indent outdent : Token}
    (hcolon : colon.kind = .colon) (hindent : indent.kind = .indent)
    (houtdent : outdent.kind = .outdent) {hs : Cursor.kind ⟨colon.span, tag ++ after⟩ |>.startsTag}
    {inner : Tag} {d : Cursor.After ⟨colon.span, tag ++ after⟩}
    (hinner : readTag ⟨colon.span, tag ++ after⟩ hs = .ok (inner, d)) (htag : d.1.rest = after)
    (hafter : ∀ t ∈ after.head?, t.kind ≠ .indent) {block : Block}
    (h : Block.ofTokens (front ++ colon :: (tag ++ after)) = .ok block) :
    ∃ block', Block.ofTokens (front ++ indent :: (tag ++ outdent :: after)) = .ok block' ∧
      block'.toValue = block.toValue := by
  have hnext : nextKind after ≠ .indent := by
    cases after with
    | nil => simp [nextKind, Token.kind, Lexeme.kind]
    | cons t ts => exact hafter t rfl
  let x : Expansion := ⟨colon, indent, outdent, tag, after, hcolon, hindent, houtdent, hnext,
    [.tag inner], d, Reads.of_read (by rw [Goal.read, dif_pos hs, hinner]; rfl), htag⟩
  rw [Block.ofTokens_eq] at h
  obtain ⟨⟨is, e⟩, hread, rfl⟩ := map_eq_ok_iff.1 h
  have hreads := Reads.of_read hread
  have hstart : x.At (.ofTokens (front ++ x.inline)) (.ofTokens (front ++ x.nested)) :=
    (Expansion.at_or_meets rfl rfl).resolve_right fun hm =>
      Expansion.rest_ne_of_items hreads hm.1
  obtain ⟨js, e', he', -, hjs⟩ := hstart.reads hreads
    (Expansion.rest_ne_inline (by simp [hreads.kind_stop]))
  refine ⟨Block.ofItems js e'.current.span, ?_, ?_⟩
  · rw [Block.ofTokens_eq]
    exact map_eq_ok_iff.2 ⟨(js, e'), he'.read, rfl⟩
  · simp only [Block.toValue, blockValues, Block.ofItems, hjs.itemsValues_eq]

/-- The front of a chain of tags, up to its second colon. -/
def chainFront : List Token :=
  ([.tag "a", .colon, .tag "b", .classShorthand "x"] : List Lexeme).map (⟨·, .nowhere⟩)

/-- The last tag of the chain, with a text and a line nested below it. -/
def chainTag : List Token :=
  ([.tag "c", .text "t", .indent, .tag "d", .outdent] : List Lexeme).map (⟨·, .nowhere⟩)

/-- What comes after the chain. -/
def chainAfter : List Token :=
  ([.newline, .tag "e", .eof] : List Lexeme).map (⟨·, .nowhere⟩)

/-- A colon in front of a tag with a block of its own, between a chain of tags and a further
    line. -/
theorem Block.toValue_expand_chain :
    ∃ block block', Block.ofTokens (chainFront ++ ⟨.colon, .nowhere⟩ :: (chainTag ++ chainAfter)) =
        .ok block ∧
      Block.ofTokens (chainFront ++
        ⟨.indent, .nowhere⟩ :: (chainTag ++ ⟨.outdent, .nowhere⟩ :: chainAfter)) = .ok block' ∧
      block'.toValue = block.toValue := by
  have hs : (Cursor.kind ⟨.nowhere, chainTag ++ chainAfter⟩).startsTag = true := by decide
  have hread : ((readTag ⟨.nowhere, chainTag ++ chainAfter⟩ hs).toOption.map (·.2.1.rest)) =
      some chainAfter := by decide +kernel +revert
  have hparse : (Block.ofTokens (chainFront ++
      ⟨.colon, .nowhere⟩ :: (chainTag ++ chainAfter))).toOption.isSome = true := by decide +kernel
  obtain ⟨⟨inner, d⟩, hinner, hd⟩ := Option.map_eq_some_iff.1 hread
  obtain ⟨block, hblock⟩ := Option.isSome_iff_exists.1 hparse
  have hindent : Token.kind ⟨.indent, .nowhere⟩ = .indent := rfl
  have houtdent : Token.kind ⟨.outdent, .nowhere⟩ = .outdent := rfl
  obtain ⟨block', hblock', hvalue⟩ := Block.toValue_expand rfl hindent houtdent
    (ok_of_toOption hinner) hd (by decide) (ok_of_toOption hblock)
  exact ⟨block, block', ok_of_toOption hblock, hblock', hvalue⟩

end SlotMarkup
