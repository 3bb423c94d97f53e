import SlotMarkup.Proofs.OutlineTokens
import SlotMarkup.Proofs.ParseOutcome

/-!
# The tree of an outline

What is parsed from a text has the shape of the outline of its lines (`Shows`): a line
of text or a comment stands for itself, and a chain of tags for a tag in a tag
(`ShowsTag`), the innermost of which holds the lines nested below.

* `shows_of_unread`: the parser reads the lines at a depth of nesting;
* `Block.parse_offside`: in the tree of a text, every line is in the last tag of the
  last line before it that is indented by less.
-/

namespace SlotMarkup

/-! ## What tokens stand for -/

/-- The attribute that a token in the head of a tag stands for. -/
def Token.attribute? (t : Token) : Option Attribute :=
  match t.lexeme with
  | .idShorthand x => some ⟨"id", quoted x, t.span⟩
  | .classShorthand x => some ⟨"class", quoted x, t.span⟩
  | .attr name value => some ⟨name, value, t.span⟩
  | _ => none

/-- The text that a token in the body of a tag stands for, which is a line feed between
    the lines of a text block. -/
def Token.bodyText? (t : Token) : Option Item :=
  match t.lexeme with
  | .text value => some (.text ⟨value, t.span⟩)
  | .newline => some (.text ⟨"\n", t.span⟩)
  | _ => none

/-- The name in the head of a tag. -/
def headName (hs : List Token) : String :=
  match hs.head?.map Token.lexeme with
  | some (.tag name) => name
  | _ => defaultTag

/-- The head that some tokens stand for. -/
def headOf (hs : List Token) : TagHead := ⟨headName hs, hs.filterMap Token.attribute?⟩

/-- The tag that a chain of tags stands for, with `below` in the last tag of it. -/
inductive ShowsTag (below : List Item) : List Token → Tag → Prop
  | last {hs bs} (hh : IsHead hs) (hb : IsBody bs) (inner span : Span) :
      ShowsTag below (hs ++ bs) ⟨headName hs, hs.filterMap Token.attribute?,
        some ⟨bs.filterMap Token.bodyText? ++ below, inner⟩, span⟩
  | colon {hs c ts child} (hh : IsHead hs) (hc : c.kind = .colon)
      (only : ShowsTag below ts child) (inner span : Span) :
      ShowsTag below (hs ++ c :: ts) ⟨headName hs, hs.filterMap Token.attribute?,
        some ⟨[.tag child], inner⟩, span⟩

/-- The items that the lines of a forest stand for; `afterText` says that the line
    before is one of text. -/
inductive Shows : Bool → Forest OpeningLine → List Item → Prop
  | nil {a} : Shows a .nil []
  | text {a l t value f is} (hl : l.content = [t]) (ht : t.lexeme = .text value)
      (more : Shows true f is) : Shows a (.cons l .nil f) (textItems a value t.span ++ is)
  | comment {a l t value buffered f is} (hl : l.content = [t])
      (ht : t.lexeme = .comment value buffered) (more : Shows false f is) :
      Shows a (.cons l .nil f) (.comment ⟨value, buffered, t.span⟩ :: is)
  | tag {a l tag f is} (ht : ShowsTag [] l.content tag) (more : Shows false f is) :
      Shows a (.cons l .nil f) (.tag tag :: is)
  | nested {a l g js tag f is} (hg : g ≠ .nil) (below : Shows false g js) (span : Span)
      (ht : ShowsTag [.block ⟨js, span⟩] l.content tag) (more : Shows false f is) :
      Shows a (.cons l g f) (.tag tag :: is)

/-! ## Heads and bodies -/

theorem Cursor.rest_of_lexeme {c : Cursor} {l : Lexeme} (h : c.current.lexeme = l)
    (hl : l.kind ≠ .eof) : c.rest = c.current :: c.advance.rest :=
  rest_advance (kind_ne_eof h hl)

/-- The attributes of a list are those of the tokens that are passed. -/
theorem listedAttributes_eq (c : Cursor) : ∃ ts, c.rest = ts ++ (listedAttributes c).2.rest ∧
    (listedAttributes c).1 = ts.filterMap Token.attribute? := by
  fun_induction listedAttributes c with
  | case1 c name value hl attrs d h ih =>
    rw [h] at ih
    obtain ⟨ts, hts, has⟩ := ih
    refine ⟨c.current :: ts, ?_, ?_⟩
    · rw [Cursor.rest_of_lexeme hl (by simp [Lexeme.kind]), hts]
      rfl
    · dsimp only at has ⊢
      rw [List.filterMap_cons, Token.attribute?, hl, has]
  | case2 c => exact ⟨[], rfl, rfl⟩

/-- So are all attributes of a head. -/
theorem attributeRun_eq {c d : Cursor} {as : List Attribute} (h : attributeRun c = .ok (as, d)) :
    ∃ ts, c.rest = ts ++ d.rest ∧ as = ts.filterMap Token.attribute? := by
  fun_induction attributeRun c generalizing as with
  | case1 c x hl ih | case2 c x hl ih =>
    obtain ⟨bs, hbs, rfl⟩ := map_fst_eq_ok_iff.1 h
    obtain ⟨ts, hts, rfl⟩ := ih hbs
    refine ⟨c.current :: ts, ?_, ?_⟩
    · rw [Cursor.rest_of_lexeme hl (by simp [Lexeme.kind]), hts]
      rfl
    · rw [List.filterMap_cons, Token.attribute?, hl]
  | case3 => simp at h
  | case4 c hl e he ih =>
    obtain ⟨bs, hbs, rfl⟩ := map_fst_eq_ok_iff.1 h
    obtain ⟨ts, hts, rfl⟩ := ih hbs
    obtain ⟨us, hus, has⟩ := listedAttributes_eq c.advance
    rw [Cursor.expect] at he
    split at he
    · rename_i hclose
      obtain rfl := Except.ok.inj he
      have hnone : (listedAttributes c.advance).2.current.attribute? = none := by
        rw [Token.attribute?, Lexeme.eq_of_kind (m := .closeAttributes) hclose rfl]
      refine ⟨c.current :: (us ++ (listedAttributes c.advance).2.current :: ts), ?_, ?_⟩
      · rw [Cursor.rest_of_lexeme hl (by simp [Lexeme.kind]), hus,
          Cursor.rest_advance (by simp [hclose]), hts]
        simp
      · rw [List.filterMap_cons, Token.attribute?, hl, List.filterMap_append, List.filterMap_cons,
          hnone, has]
    · simp at he
  | case5 =>
    obtain ⟨rfl, rfl⟩ := Prod.mk.inj (Except.ok.inj h)
    exact ⟨[], rfl, rfl⟩

theorem headName_tag {t : Token} {ts : List Token} {name : String} (h : t.lexeme = .tag name) :
    headName (t :: ts) = name := by
  simp [headName, h]

theorem headName_default {t : Token} {ts : List Token} (h : ∀ name, t.lexeme ≠ .tag name) :
    headName (t :: ts) = defaultTag := by
  rw [headName, List.head?_cons, Option.map_some]
  split
  · rename_i hl
    exact absurd (Option.some.inj hl) (h _)
  · rfl

/-- What is read as a head is what its tokens stand for. -/
theorem readHead_eq {hs ts : List Token} (h : IsHead hs) (hts : NoPart ts) {c : Cursor}
    (hc : c.rest = hs ++ ts) : ∃ d, readHead c = .ok (headOf hs, d) ∧ d.rest = ts := by
  obtain ⟨head, d, hread, hd⟩ := readHead_of_head h hts hc
  refine ⟨d, ?_, hd⟩
  rw [hread]
  rw [readHead] at hread
  split at hread
  · rename_i name hl
    obtain ⟨as, has, rfl⟩ := map_fst_eq_ok_iff.1 hread
    obtain ⟨ps, hps, rfl⟩ := attributeRun_eq has
    rw [Cursor.rest_of_lexeme hl (by simp [Lexeme.kind]), hps, hd] at hc
    obtain rfl : c.current :: ps = hs := List.append_cancel_right hc
    rw [headOf, headName_tag hl, List.filterMap_cons, Token.attribute?, hl]
  · rename_i hl
    obtain ⟨as, has, rfl⟩ := map_fst_eq_ok_iff.1 hread
    obtain ⟨ps, hps, rfl⟩ := attributeRun_eq has
    obtain rfl : ps = hs := List.append_cancel_right (by rw [← hc, hps, hd])
    cases h with
    | start => rw [headOf, headName_default (Cursor.current_of_rest hc ▸ hl)]

/-- The items of a block of text are those of the tokens that are passed. -/
theorem textBlockItems_eq {c d : Cursor} {is : List Item} (h : textBlockItems c = .ok (is, d)) :
    ∃ ts, c.rest = ts ++ d.rest ∧ is = ts.filterMap Token.bodyText? := by
  fun_induction textBlockItems c generalizing is with
  | case1 c value hl ih | case2 c hl ih =>
    obtain ⟨js, hjs, rfl⟩ := map_fst_eq_ok_iff.1 h
    obtain ⟨ts, hts, rfl⟩ := ih hjs
    refine ⟨c.current :: ts, ?_, ?_⟩
    · rw [Cursor.rest_of_lexeme hl (by simp [Lexeme.kind]), hts]
      rfl
    · rw [List.filterMap_cons, Token.bodyText?, hl]
  | case3 c hl =>
    obtain ⟨rfl, rfl⟩ := Prod.mk.inj (Except.ok.inj h)
    refine ⟨[c.current], Cursor.rest_of_lexeme hl (by simp [Lexeme.kind]), ?_⟩
    rw [List.filterMap_cons, Token.bodyText?, hl]
    rfl
  | case4 => simp at h

theorem IsBody.head_ne_colon {bs ts : List Token} (h : IsBody bs) (hts : EndsTag ts) :
    ∀ t ∈ (bs ++ ts).head?, t.kind ≠ .colon := by
  cases h with
  | nil =>
    intro t ht
    rcases hts t ht with h | h | h | h <;> simp [h]
  | text ht =>
    rintro t ⟨rfl⟩
    simp [ht]
  | block ho =>
    rintro t ⟨rfl⟩
    simp [ho]

/-- What is read as a body is what its tokens stand for. -/
theorem readInline_eq {bs ts : List Token} (h : IsBody bs) (hts : EndsTag ts) {c : Cursor}
    (hc : c.rest = bs ++ ts) :
    ∃ d, Goal.inline.read c = .ok (bs.filterMap Token.bodyText?, d) ∧ d.rest = ts := by
  obtain ⟨is, d, hread, hd⟩ := readInline_of_body h hts hc
  refine ⟨d, ?_, hd⟩
  rw [hread]
  -- The tokens of a body are those that are taken for it.
  suffices hus : ∃ us, c.rest = us ++ d.rest ∧ is = us.filterMap Token.bodyText? by
    obtain ⟨us, hus, rfl⟩ := hus
    rw [hc, hd] at hus
    rw [List.append_cancel_right hus]
  cases read_eq_ok_iff.1 hread with
  | colon hl =>
    have hk : c.kind ≠ .colon := by
      refine c.kind_ne_of_head (fun t ht => ?_) (by decide)
      rw [hc] at ht
      exact h.head_ne_colon hts t ht
    exact absurd (by rw [Cursor.kind, Token.kind, hl]; rfl) hk
  | block hl lines =>
    obtain ⟨us, hus, rfl⟩ := textBlockItems_eq lines
    refine ⟨c.current :: us, ?_, ?_⟩
    · rw [Cursor.rest_of_lexeme hl (by simp [Lexeme.kind]), hus]
      rfl
    · rw [List.filterMap_cons, Token.bodyText?, hl]
  | inlineText hl =>
    refine ⟨[c.current], Cursor.rest_of_lexeme hl (by simp [Lexeme.kind]), ?_⟩
    rw [List.filterMap_cons, Token.bodyText?, hl]
    rfl
  | noInline => exact ⟨[], rfl, rfl⟩

/-! ## Chains -/

/-- The parser reads a chain of tags, and in the last of them whatever can be read below
    it. -/
theorem showsTag_of_chain {cs ts : List Token} (h : IsChain cs) (hts : EndsTag ts) {c : Cursor}
    (hc : c.rest = cs ++ ts) : ∃ d, d.rest = ts ∧
      ∀ js e, Goal.nested.read d = .ok (js, e) → e.kind ≠ .indent →
        ∃ tag, Goal.tag.read c = .ok ([.tag tag], e) ∧ ShowsTag js cs tag := by
  induction h generalizing c with
  | last hh hb =>
    rw [List.append_assoc] at hc
    obtain ⟨b, hhead, hbr⟩ := readHead_eq hh (hb.noPart hts) hc
    obtain ⟨d, hi, hd⟩ := readInline_eq hb hts hbr
    refine ⟨d, hd, fun js e he _ => ?_⟩
    have hread := Goal.read_tag (hh.startsTag hc)
    rw [hhead] at hread
    simp only [Except.bind, hi, he] at hread
    exact ⟨_, hread, .last hh hb _ _⟩
  | @colon hs cl cs hh hcl hchain ih =>
    rw [List.append_assoc, List.cons_append] at hc
    have hpart : NoPart (cl :: (cs ++ ts)) := by
      rintro t ⟨rfl⟩
      simp [hcl]
    obtain ⟨b, hhead, hbr⟩ := readHead_eq hh hpart hc
    have hlex : b.current.lexeme = .colon :=
      Cursor.current_of_rest hbr ▸ Lexeme.eq_of_kind hcl rfl
    obtain ⟨d, hd, hok⟩ := ih (Cursor.rest_advance_of_rest hbr (by simp [hcl]))
    refine ⟨d, hd, fun js e he hk => ?_⟩
    obtain ⟨child, hchild, hshows⟩ := hok js e he hk
    have hread := Goal.read_tag (hh.startsTag hc)
    rw [hhead] at hread
    simp only [Except.bind, Goal.read_inline_colon hlex,
      if_pos (Goal.startsTag_of_read_tag hchild), hchild, Goal.read_nested_none hk] at hread
    exact ⟨_, hread, .colon hh hcl hshows _ _⟩

/-! ## Lines at a depth -/

/-- The tokens left after the items at a depth, whose outer depths have these lines still
    to come. -/
inductive Left : List (Forest OpeningLine) → List Token → Prop
  | eof {t} (h : t.kind = .eof) : Left [] [t]
  | outdent {f fs t ts} (h : t.kind = .outdent) (more : Unread (f :: fs) ts) :
      Left (f :: fs) (t :: ts)

/-- What is left of an outline does not start with an indent. -/
theorem Unread.head_kind {fs : List (Forest OpeningLine)} {ts : List Token} (h : Unread fs ts) :
    ∀ t ∈ ts.head?, t.kind ≠ .indent := by
  have hchain {cs us : List Token} (hc : IsChain cs) :
      ∀ t ∈ (cs ++ us).head?, t.kind ≠ .indent := by
    intro t ht hk
    obtain ⟨u, hu, hstart⟩ := hc.head_kind us
    rw [Option.mem_unique hu ht, hk] at hstart
    simp [Kind.startsTag] at hstart
  cases h with
  | chain h | nested h => exact hchain h
  | eof h | outdent h | newline h =>
    rintro t ⟨rfl⟩
    simp [h]
  | single _ h =>
    rintro t ⟨rfl⟩
    rcases h with h | h <;> simp [h]

/-- After the items nested below a tag, the tokens go on at the tag's own depth. -/
theorem nested_of_left {c e : Cursor} {i : Token} {ts : List Token} {js : List Item}
    {f : Forest OpeningLine} {fs : List (Forest OpeningLine)} (hc : c.rest = i :: ts)
    (hi : i.kind = .indent) (hread : (Goal.items .outdent false).read c.advance = .ok (js, e))
    (hleft : Left (f :: fs) e.rest) :
    ∃ span d, Goal.nested.read c = .ok ([.block ⟨js, span⟩], d) ∧ Unread (f :: fs) d.rest ∧
      d.rest.length ≤ ts.length := by
  have hle := Goal.read_le hread
  rw [Cursor.rest_advance_of_rest hc (by simp [hi])] at hle
  generalize hr : e.rest = us at hleft hle
  cases hleft with
  | outdent ht more =>
    have hadv := Cursor.rest_advance_of_rest hr (by simp [ht])
    refine ⟨(nestedBlock c.current.span js).span, e.advance, ?_, hadv ▸ more,
      hadv ▸ Nat.le_of_succ_le hle⟩
    rw [Goal.read_nested_indent ((Cursor.kind_of_rest hc).trans hi), hread]
    simp only [Except.bind, Cursor.expect, Cursor.kind_of_rest hr, ht, if_true]
    rfl

/-- The parser reads the lines at a depth of nesting as what they stand for. -/
theorem shows_of_unread {f : Forest OpeningLine} {fs : List (Forest OpeningLine)}
    {ts : List Token} (h : Unread (f :: fs) ts) {c : Cursor} (hc : c.rest = ts) (a : Bool) :
    ∃ is d, (Goal.items (stopKind fs.length) a).read c = .ok (is, d) ∧ Shows a f is ∧
      Left fs d.rest := by
  -- By the length of the tokens: those after a nested run are no part of its derivation.
  induction hn : ts.length using Nat.strongRecOn generalizing f fs ts c a with
  | ind n ih =>
    subst hn
    cases h with
    | eof ht =>
      have hl := Cursor.current_of_rest hc ▸ Lexeme.eq_of_kind (m := .eof) ht rfl
      refine ⟨[], c, ?_, .nil, hc ▸ .eof ht⟩
      rw [Goal.read_items_stop (.inl hl), List.length_nil, stopKind,
        if_pos ((Cursor.kind_of_rest hc).trans ht)]
    | outdent ht more =>
      have hl := Cursor.current_of_rest hc ▸ Lexeme.eq_of_kind (m := .outdent) ht rfl
      refine ⟨[], c, ?_, .nil, hc ▸ .outdent ht more⟩
      rw [Goal.read_items_stop (.inr hl), List.length_cons, stopKind,
        if_pos ((Cursor.kind_of_rest hc).trans ht)]
    | newline ht more =>
      have hl := Cursor.current_of_rest hc ▸ Lexeme.eq_of_kind (m := .newline) ht rfl
      rw [Goal.read_items_newline hl]
      exact ih _ (by simp) more (Cursor.rest_advance_of_rest hc (by simp [ht])) a rfl
    | single hl ht more =>
      have hcur := Cursor.current_of_rest hc
      rcases ht with ht | ht
      · obtain ⟨value, hlex⟩ := Lexeme.eq_text ht
        obtain ⟨is, d, his, hshows, hleft⟩ :=
          ih _ (by simp) more (Cursor.rest_advance_of_rest hc (by simp [ht])) true rfl
        refine ⟨_, d, ?_, .text hl hlex hshows, hleft⟩
        rw [Goal.read_items_text (hcur ▸ hlex), his, hcur]
        rfl
      · obtain ⟨value, buffered, hlex⟩ := Lexeme.eq_comment ht
        obtain ⟨is, d, his, hshows, hleft⟩ :=
          ih _ (by simp) more (Cursor.rest_advance_of_rest hc (by simp [ht])) false rfl
        refine ⟨_, d, ?_, .comment hl hlex hshows, hleft⟩
        rw [Goal.read_items_comment (hcur ▸ hlex), his, hcur]
        rfl
    | @chain l _ _ us hchain hts more =>
      -- Nothing is nested below the chain: after it, the items go on.
      obtain ⟨e, he, hok⟩ := showsTag_of_chain hchain hts.endsTag hc
      have hk := e.kind_ne_of_head (he ▸ more.head_kind) (by decide)
      obtain ⟨tag, htag, hshows⟩ := hok [] e (Goal.read_nested_none hk) hk
      have hlen : us.length < (l.content ++ us).length := by
        have := List.length_pos_iff.2 hchain.ne_nil
        rw [List.length_append]
        omega
      obtain ⟨is, d, his, hmore, hleft⟩ := ih _ hlen more he false rfl
      refine ⟨_, d, ?_, .tag hshows hmore, hleft⟩
      rw [Goal.read_items_tag (Goal.startsTag_of_read_tag htag), htag, Except.bind, his]
      rfl
    | @nested l i g _ _ us hchain hi hg more =>
      obtain ⟨e, he, hok⟩ := showsTag_of_chain hchain (by rintro t ⟨rfl⟩; simp [hi]) hc
      have hlen : us.length < (l.content ++ i :: us).length := by
        rw [List.length_append, List.length_cons]
        omega
      -- Below the chain is one more depth.
      obtain ⟨js, e', hjs, hbelow, hleft⟩ :=
        ih _ hlen more (Cursor.rest_advance_of_rest he (by simp [hi])) false rfl
      obtain ⟨span, d, hd, more', hle⟩ := nested_of_left he hi hjs hleft
      obtain ⟨tag, htag, hshows⟩ := hok _ d hd (d.kind_ne_of_head more'.head_kind (by decide))
      obtain ⟨is, d', his, hmore, hleft'⟩ :=
        ih _ (Nat.lt_of_le_of_lt hle hlen) more' rfl false rfl
      refine ⟨_, d', ?_, .nested hg hbelow span hshows hmore, hleft'⟩
      rw [Goal.read_items_tag (Goal.startsTag_of_read_tag htag), htag, Except.bind, his]
      rfl

/-! ## Texts -/

/-- A text without a misplaced indentation is parsed, and what is parsed has the shape of
    its outline. -/
theorem shows_of_scanMarked {text : String} {ms : List Marked}
    (h : Token.scanMarked text = .ok ms) (hm : misplaced true ms = []) :
    ∃ block, Block.parse text = .ok block ∧ ∃ lines f, openingLines text = .ok lines ∧
      f.toList = lines ∧ f.Level 0 ∧ Shows false f block.nodes := by
  obtain ⟨lines, f, hlines, hf, hlevel, hunread⟩ := unread_of_scanMarked h hm
  obtain ⟨is, d, hread, hshows, -⟩ := shows_of_unread hunread (c := .ofTokens _) rfl false
  refine ⟨Block.ofItems is d.current.span, ?_, lines, f, hlines, hf, hlevel, hshows⟩
  have hread' : (Goal.items .eof false).read (.ofTokens (ms.map Marked.token)) = .ok (is, d) :=
    hread
  rw [Block.parse, scan_eq_marked, h]
  simp only [Except.map, Block.ofTokens_eq, hread']

/-- Nothing is misplaced in a text that is parsed. -/
theorem misplaced_of_parse {text : String} {block : Block} (h : Block.parse text = .ok block) :
    ∃ ms, Token.scanMarked text = .ok ms ∧ misplaced true ms = [] := by
  rw [Block.parse] at h
  split at h
  · simp at h
  · rename_i tokens hscan
    rw [Block.ofTokens_eq] at h
    obtain ⟨⟨is, d⟩, hread, -⟩ := map_eq_ok_iff.1 h
    obtain ⟨marked, hmarked, rfl, hout⟩ := outcome_of_scan hscan
    refine ⟨marked, hmarked, ?_⟩
    rcases hout with ⟨js, e, hjs, hstop⟩ | ⟨s, -, he⟩
    · generalize e.rest = ts, hm : (misplaced true marked).head?.map Token.span = m at hstop
      cases hstop
      simpa using hm
    · rw [hread] at he
      simp at he

/-- The opening lines of a text are its lines that are neither blank nor swallowed by a
    comment, a text block or an attribute list. In the tree of the text, the items of
    such a line are in the last tag of the last opening line before it that is indented by
    less, or at the root. What is in the same tag is indented by the same width, and
    in the order of the text. -/
theorem Block.parse_offside {text : String} {block : Block} (h : Block.parse text = .ok block) :
    ∃ lines f, openingLines text = .ok lines ∧
      (lines.map OpeningLine.start).Sublist (lineStarts (.ofText text)) ∧
      (∀ q ∈ lineStarts (.ofText text), (∃ l ∈ lines, l.start = q) ↔
        isBlankText q.line = false ∧ ∀ l ∈ lines, ¬ l.Swallows q) ∧
      f.toList = lines ∧ f.edges none = enclosers [] lines ∧ f.Level 0 ∧
      Shows false f block.nodes := by
  obtain ⟨ms, hms, hm⟩ := misplaced_of_parse h
  obtain ⟨block', hblock', lines, f, hlines, rfl, hlevel, hshows⟩ := shows_of_scanMarked hms hm
  obtain rfl := Except.ok.inj (h.symm.trans hblock')
  exact ⟨_, f, hlines, openingLinesFrom_sublist hlines, fun _ => openingLines_spec hlines, rfl,
    edges_eq_enclosers hlevel, hlevel, hshows⟩

/-- The second line is swallowed by the attribute list of the first, the fifth by the text
    block of the third. The lines after the text block are in the first tag again, as
    a tab is as wide as a space. -/
theorem Block.parse_offside_outdents :
    ∃ block lines, ∃ f : Forest OpeningLine,
      Block.parse "a(b\n c)\n  d: e.\n\n     f\n  // g\n\t\th\ni" = .ok block ∧
      openingLines "a(b\n c)\n  d: e.\n\n     f\n  // g\n\t\th\ni" = .ok lines ∧
      lines.map OpeningLine.indent = [0, 2, 2, 2, 0] ∧
      f.toList = lines ∧ f.edges none = enclosers [] lines ∧ Shows false f block.nodes := by
  have hparse : (Block.parse
      "a(b\n c)\n  d: e.\n\n     f\n  // g\n\t\th\ni").toOption.isSome = true := by
    decide +kernel
  obtain ⟨block, hblock⟩ := Option.isSome_iff_exists.1 hparse
  obtain ⟨lines, f, hlines, -, -, hf, hedges, -, hshows⟩ :=
    Block.parse_offside (ok_of_toOption hblock)
  have hindents : (openingLines "a(b\n c)\n  d: e.\n\n     f\n  // g\n\t\th\ni").toOption.map
      (·.map OpeningLine.indent) = some [0, 2, 2, 2, 0] := by
    decide +kernel
  rw [hlines] at hindents
  exact ⟨block, lines, f, ok_of_toOption hblock, hlines, Option.some.inj hindents, hf, hedges,
    hshows⟩

end SlotMarkup
