import SlotMarkup.Markup.Parser

/-!
# What the parser reads

The readers of the parser, each with the proof that it moves on, as one function
from a *goal* and a cursor to items and a cursor (`Goal.read`), with an equation
for each kind of token it can meet.

The grammar of markup says the same of the successful readings alone (`Reads`),
so that they can be reasoned about by induction.

* `read_eq_ok_iff`: the parser reads what is in the grammar, and nothing else;
* `Reads.suffix`: reading moves on in the tokens.
-/

namespace SlotMarkup

/-- What is done to the items that are read leaves the cursor after them. -/
theorem map_fst_eq_ok_iff {ε α β γ : Type} {r : Except ε (α × γ)} {f : α → β} {b : β} {d : γ} :
    (r.map fun s => (f s.1, s.2)) = .ok (b, d) ↔ ∃ a, r = .ok (a, d) ∧ f a = b := by
  simp [map_eq_ok_iff]

/-! ## Lexemes -/

/-- The kinds of lexemes without a payload. -/
def Kind.isPlain : Kind → Bool
  | .tag | .idShorthand | .classShorthand | .attr | .text | .comment => false
  | _ => true

/-- A lexeme without a payload is known by its kind. -/
theorem Lexeme.eq_of_kind {l m : Lexeme} (h : l.kind = m.kind) (hm : m.kind.isPlain = true) :
    l = m := by
  cases m <;> simp [Lexeme.kind, Kind.isPlain] at hm
  all_goals cases l <;> simp [Lexeme.kind] at h ⊢

/-- A lexeme with a payload is known by its kind, up to the payload. -/
theorem Lexeme.eq_text {l : Lexeme} (h : l.kind = .text) : ∃ value, l = .text value := by
  cases l <;> simp [kind] at h ⊢

theorem Lexeme.eq_comment {l : Lexeme} (h : l.kind = .comment) :
    ∃ value buffered, l = .comment value buffered := by
  cases l <;> simp [kind] at h ⊢

theorem Lexeme.eq_attr {l : Lexeme} (h : l.kind = .attr) : ∃ name value, l = .attr name value := by
  cases l <;> simp [kind] at h ⊢

theorem Lexeme.eq_idShorthand {l : Lexeme} (h : l.kind = .idShorthand) :
    ∃ name, l = .idShorthand name := by
  cases l <;> simp [kind] at h ⊢

theorem Lexeme.eq_classShorthand {l : Lexeme} (h : l.kind = .classShorthand) :
    ∃ name, l = .classShorthand name := by
  cases l <;> simp [kind] at h ⊢

/-! ## Heads and text blocks -/

section Equations

variable {c : Cursor}

/-- Each attribute of a list comes before those that follow it. -/
theorem listedAttributes_attr {name : String} {value : AttrValue}
    (h : c.current.lexeme = .attr name value) : listedAttributes c =
      (⟨name, value, c.current.span⟩ :: (listedAttributes c.advance).1,
        (listedAttributes c.advance).2) := by
  rw [listedAttributes.eq_def]
  split
  · rename_i h'
    obtain ⟨rfl, rfl⟩ := Lexeme.attr.inj (h.symm.trans h')
    rfl
  · rename_i h'
    exact absurd h (h' name value)

/-- A list of attributes ends before any other token. -/
theorem listedAttributes_end (h : c.kind ≠ .attr) : listedAttributes c = ([], c) := by
  rw [listedAttributes.eq_def]
  split
  · rename_i h'
    exact absurd (by rw [Cursor.kind, Token.kind, h']; rfl) h
  · rfl

/-- A shorthand with a number sign is an attribute `id`. -/
theorem attributeRun_idShorthand {x : String} (h : c.current.lexeme = .idShorthand x) :
    attributeRun c = (attributeRun c.advance).map fun r =>
      (⟨"id", quoted x, c.current.span⟩ :: r.1, r.2) := by
  rw [attributeRun.eq_def]
  split
  all_goals simp_all

/-- A shorthand with a dot is an attribute `class`. -/
theorem attributeRun_classShorthand {x : String} (h : c.current.lexeme = .classShorthand x) :
    attributeRun c = (attributeRun c.advance).map fun r =>
      (⟨"class", quoted x, c.current.span⟩ :: r.1, r.2) := by
  rw [attributeRun.eq_def]
  split
  all_goals simp_all

/-- A list has to be closed, and the run of attributes goes on behind it. -/
theorem attributeRun_list (h : c.current.lexeme = .openAttributes) : attributeRun c =
    ((listedAttributes c.advance).2.expect .closeAttributes).bind fun d =>
      (attributeRun d).map fun r => ((listedAttributes c.advance).1 ++ r.1, r.2) := by
  rw [attributeRun.eq_def]
  split
  case h_3 =>
    split
    · rename_i he
      rw [he, Except.bind]
    · rename_i hd
      rw [hd, Except.bind]
  all_goals simp_all

/-- A run of attributes ends before any other token. -/
theorem attributeRun_end (h : c.kind ≠ .idShorthand ∧ c.kind ≠ .classShorthand ∧
    c.kind ≠ .openAttributes) : attributeRun c = .ok ([], c) := by
  rw [attributeRun.eq_def]
  split
  all_goals simp_all [Cursor.kind, Token.kind, Lexeme.kind]

/-- After the start of a tag, its head is a run of attributes. -/
theorem readHead_eq_map (h : c.kind.startsTag = true) : ∃ head : List Attribute → TagHead,
    readHead c = (attributeRun c.advance).map fun r => (head r.1, r.2) := by
  cases hl : c.current.lexeme with
  | tag name => exact ⟨fun as => ⟨name, as⟩, by rw [readHead, hl]⟩
  | idShorthand x =>
    refine ⟨fun as => ⟨defaultTag, ⟨"id", quoted x, c.current.span⟩ :: as⟩, ?_⟩
    rw [readHead, hl]
    dsimp only
    rw [attributeRun_idShorthand hl]
    cases attributeRun c.advance <;> rfl
  | classShorthand x =>
    refine ⟨fun as => ⟨defaultTag, ⟨"class", quoted x, c.current.span⟩ :: as⟩, ?_⟩
    rw [readHead, hl]
    dsimp only
    rw [attributeRun_classShorthand hl]
    cases attributeRun c.advance <;> rfl
  | _ => simp [Cursor.kind, Token.kind, hl, Lexeme.kind, Kind.startsTag] at h

theorem textBlockItems_text {value : String} (h : c.current.lexeme = .text value) :
    textBlockItems c = (textBlockItems c.advance).map fun r =>
      (.text ⟨value, c.current.span⟩ :: r.1, r.2) := by
  rw [textBlockItems.eq_def]
  split
  all_goals simp_all

theorem textBlockItems_newline (h : c.current.lexeme = .newline) :
    textBlockItems c = (textBlockItems c.advance).map fun r =>
      (.text ⟨"\n", c.current.span⟩ :: r.1, r.2) := by
  rw [textBlockItems.eq_def]
  split
  all_goals simp_all

theorem textBlockItems_close (h : c.current.lexeme = .closeTextBlock) :
    textBlockItems c = .ok ([], c.advance) := by
  rw [textBlockItems.eq_def]
  split
  all_goals simp_all

/-- Only texts and line breaks are in a text block. -/
theorem textBlockItems_unexpected
    (hk : ∀ k ∈ [Kind.text, .newline, .closeTextBlock], c.kind ≠ k) :
    textBlockItems c = .error (c.unexpected (.kind .closeTextBlock)) := by
  rw [textBlockItems.eq_def]
  split
  all_goals simp_all [Cursor.kind, Token.kind, Lexeme.kind]

end Equations

/-! ## Goals -/

/-- What can be read at a cursor. -/
inductive Goal
  /-- The items up to a token of the kind `stop`; `afterText` says that the item
      before is a line of text. -/
  | items (stop : Kind) (afterText : Bool)
  /-- A tag with all that is in it. -/
  | tag
  /-- The content of a tag on its own line. -/
  | inline
  /-- The items nested below a tag's line. -/
  | nested

/-- Items read before others. -/
def before (is : List Item) (r : Except ParseError (List Item × Cursor)) :
    Except ParseError (List Item × Cursor) := r.map fun s => (is ++ s.1, s.2)

namespace Goal

/-- The items of a goal, and the cursor after them. -/
def read : Goal → Cursor → Except ParseError (List Item × Cursor)
  | items stop afterText, c => (readItems stop afterText c).map fun r => (r.1, r.2.1)
  | tag, c =>
    if h : c.kind.startsTag = true then (readTag c h).map fun r => ([.tag r.1], r.2.1)
    else .error (c.unexpected .item)
  | inline, c => (readInline c).map fun r => (r.1, r.2.1)
  | nested, c => (readNested c).map fun r => (r.1, r.2.1)

section Equations

variable {c : Cursor} {stop : Kind} {a : Bool}

/-- Items end at the token that is asked for. The end of the template and that of a nested block
    do not stand for each other. -/
theorem read_items_stop (h : c.current.lexeme = .eof ∨ c.current.lexeme = .outdent) :
    (items stop a).read c =
      if c.kind = stop then .ok ([], c) else .error (c.unexpected (.kind stop)) := by
  rw [read, readItems.eq_def]
  split
  · split <;> rfl
  · split <;> rfl
  all_goals simp_all

/-- A line break between items is passed. -/
theorem read_items_newline (h : c.current.lexeme = .newline) :
    (items stop a).read c = (items stop a).read c.advance := by
  rw [read, read, readItems.eq_def]
  split
  all_goals simp_all
  cases readItems stop a c.advance <;> rfl

/-- A line of text is joined to one directly before it by a line feed. -/
theorem read_items_text {value : String} (h : c.current.lexeme = .text value) :
    (items stop a).read c =
      before (textItems a value c.current.span) ((items stop true).read c.advance) := by
  rw [read, read, readItems.eq_def]
  split
  all_goals simp_all
  cases readItems stop true c.advance <;> rfl

/-- A text after a comment is not joined to one before it. -/
theorem read_items_comment {value : String} {buffered : Bool}
    (h : c.current.lexeme = .comment value buffered) : (items stop a).read c =
      before [.comment ⟨value, buffered, c.current.span⟩] ((items stop false).read c.advance) := by
  rw [read, read, readItems.eq_def]
  split
  all_goals simp_all
  cases readItems stop false c.advance <;> rfl

/-- A text after a tag is not joined to one before it. -/
theorem read_items_tag (h : c.kind.startsTag = true) : (items stop a).read c =
    (tag.read c).bind fun r => before r.1 ((items stop false).read r.2) := by
  rw [read, read, readItems.eq_def]
  split
  case h_6 =>
    rw [dif_pos h, dif_pos h]
    cases readTag c h with
    | error e => rfl
    | ok r =>
      rw [Except.map, Except.bind, read]
      cases hr : readItems stop false r.2.1 with
      | error e =>
        simp only [bind, Except.bind, hr]
        rfl
      | ok r =>
        simp only [bind, Except.bind, hr]
        rfl
  all_goals
    rename_i hl
    simp [Cursor.kind, Token.kind, hl, Lexeme.kind, Kind.startsTag] at h

/-- No other token can start an item. -/
theorem read_items_unexpected (h : c.kind.startsTag = false)
    (hk : ∀ k ∈ [Kind.eof, .outdent, .newline, .text, .comment], c.kind ≠ k) :
    (items stop a).read c = .error (c.unexpected .item) := by
  rw [read, readItems.eq_def]
  split
  all_goals simp_all [Cursor.kind, Token.kind, Lexeme.kind]
  rfl

/-- A tag is its head, what follows on its line, and what is nested below that. -/
theorem read_tag (h : c.kind.startsTag = true) : tag.read c =
    (readHead c).bind fun (head, b) => (inline.read b).bind fun (is, d) =>
      (nested.read d).map fun (js, e) =>
        ([.tag (Tag.close head (is ++ js) c.current.span e)], e) := by
  rw [read, dif_pos h, readTag]
  split
  · rename_i e hh
    conv => rhs; rw [hh]
    rfl
  · rename_i head b hh
    conv => rhs; rw [hh]
    simp only [read, Except.bind, bind]
    cases hi : readInline b with
    | error e => simp only [Except.map]
    | ok r =>
      simp only [Except.map]
      cases hn : readNested r.2.1 with
      | error e => simp only
      | ok s => rfl

/-- Behind a colon there has to be a tag, which is then all the content on the line. -/
theorem read_inline_colon (h : c.current.lexeme = .colon) : inline.read c =
    if c.advance.kind.startsTag then tag.read c.advance
    else .error (c.advance.unexpected (.kind .tag)) := by
  conv => lhs; rw [read, readInline.eq_def]
  split
  case h_1 =>
    split
    · rename_i hc
      rw [read, dif_pos hc]
      cases readTag c.advance hc <;> rfl
    · rfl
  all_goals simp_all

/-- A text block is read up to its end. -/
theorem read_inline_block (h : c.current.lexeme = .openTextBlock) :
    inline.read c = textBlockItems c.advance := by
  rw [read, readInline.eq_def]
  split
  case h_2 =>
    split
    · rename_i e hb
      conv => rhs; rw [hb]
      rfl
    · rename_i items d hb
      conv => rhs; rw [hb]
      rfl
  all_goals simp_all

/-- A text behind a head is all the content on the line. -/
theorem read_inline_text {value : String} (h : c.current.lexeme = .text value) :
    inline.read c = .ok ([.text ⟨value, c.current.span⟩], c.advance) := by
  rw [read, readInline.eq_def]
  split
  all_goals simp_all
  rfl

/-- A line may end behind the head. -/
theorem read_inline_none (hk : ∀ k ∈ [Kind.colon, .openTextBlock, .text], c.kind ≠ k) :
    inline.read c = .ok ([], c) := by
  rw [read, readInline.eq_def]
  split
  all_goals simp_all [Cursor.kind, Token.kind, Lexeme.kind]
  rfl

/-- A nested block is all items up to its outdent. -/
theorem read_nested_indent (h : c.kind = .indent) : nested.read c =
    ((items .outdent false).read c.advance).bind fun (is, d) =>
      (d.expect .outdent).map fun e => ([.block (nestedBlock c.current.span is)], e) := by
  rw [read, read, readNested, dif_pos h]
  cases readItems .outdent false c.advance with
  | error e => rfl
  | ok r =>
    simp only [bind, Except.bind]
    split
    · rename_i e he
      have he' : r.2.1.expect .outdent = .error e := he
      simp only [Except.map, he']
    · rename_i d he
      have he' : r.2.1.expect .outdent = .ok d := he
      simp only [Except.map, he']
      rfl

/-- Without an indent nothing is nested. -/
theorem read_nested_none (h : c.kind ≠ .indent) : nested.read c = .ok ([], c) := by
  rw [read, readNested, dif_neg h]
  rfl

end Equations

/-- No reader goes back. -/
theorem read_le {g : Goal} {c d : Cursor} {is : List Item} (h : g.read c = .ok (is, d)) :
    d.rest.length ≤ c.rest.length := by
  cases g with
  | items | inline | nested =>
    obtain ⟨r, -, hr⟩ := map_eq_ok_iff.1 h
    exact (Prod.mk.inj hr).2 ▸ r.2.2
  | tag =>
    rw [read] at h
    split at h
    · obtain ⟨r, -, hr⟩ := map_eq_ok_iff.1 h
      exact (Prod.mk.inj hr).2 ▸ Nat.le_of_lt r.2.2
    · simp at h

/-- A tag is only read where one starts. -/
theorem startsTag_of_read_tag {c d : Cursor} {is : List Item} (h : tag.read c = .ok (is, d)) :
    c.kind.startsTag = true := by
  rw [read] at h
  split at h
  · assumption
  · simp at h

/-- A tag takes at least a token. -/
theorem read_tag_lt {c d : Cursor} {is : List Item} (h : tag.read c = .ok (is, d)) :
    d.rest.length < c.rest.length := by
  rw [read] at h
  split at h
  · obtain ⟨r, -, hr⟩ := map_eq_ok_iff.1 h
    exact (Prod.mk.inj hr).2 ▸ r.2.2
  · simp at h

end Goal

/-! ## The grammar -/

/-- What is read for a goal at one cursor, and the cursor after it. -/
inductive Reads : Goal → Cursor → List Item → Cursor → Prop
  | stop {c stop a} (h : c.current.lexeme = .eof ∨ c.current.lexeme = .outdent)
      (hs : c.kind = stop) : Reads (.items stop a) c [] c
  | newline {c stop a is d} (h : c.current.lexeme = .newline)
      (more : Reads (.items stop a) c.advance is d) : Reads (.items stop a) c is d
  | text {c stop a value is d} (h : c.current.lexeme = .text value)
      (more : Reads (.items stop true) c.advance is d) :
      Reads (.items stop a) c (textItems a value c.current.span ++ is) d
  | comment {c stop a value buffered is d} (h : c.current.lexeme = .comment value buffered)
      (more : Reads (.items stop false) c.advance is d) :
      Reads (.items stop a) c (.comment ⟨value, buffered, c.current.span⟩ :: is) d
  | child {c stop a is d js e} (h : c.kind.startsTag = true) (child : Reads .tag c is d)
      (more : Reads (.items stop false) d js e) : Reads (.items stop a) c (is ++ js) e
  | tag {c head b is d js e} (h : c.kind.startsTag = true) (hh : readHead c = .ok (head, b))
      (content : Reads .inline b is d) (below : Reads .nested d js e) :
      Reads .tag c [.tag (Tag.close head (is ++ js) c.current.span e)] e
  | colon {c is d} (h : c.current.lexeme = .colon) (hc : c.advance.kind.startsTag = true)
      (only : Reads .tag c.advance is d) : Reads .inline c is d
  | block {c is d} (h : c.current.lexeme = .openTextBlock)
      (lines : textBlockItems c.advance = .ok (is, d)) : Reads .inline c is d
  | inlineText {c value} (h : c.current.lexeme = .text value) :
      Reads .inline c [.text ⟨value, c.current.span⟩] c.advance
  | noInline {c} (hk : ∀ k ∈ [Kind.colon, .openTextBlock, .text], c.kind ≠ k) :
      Reads .inline c [] c
  | nested {c is d} (h : c.kind = .indent) (below : Reads (.items .outdent false) c.advance is d)
      (hd : d.kind = .outdent) :
      Reads .nested c [.block (nestedBlock c.current.span is)] d.advance
  | noNested {c} (h : c.kind ≠ .indent) : Reads .nested c [] c

/-- What is in the grammar is what the parser reads. The induction is on the grammar, and each
    rule has its equation. -/
theorem Reads.read {g : Goal} {c d : Cursor} {is : List Item} (h : Reads g c is d) :
    g.read c = .ok (is, d) := by
  induction h with
  | stop h hs => rw [Goal.read_items_stop h, if_pos hs]
  | newline h _ ih => rw [Goal.read_items_newline h, ih]
  | text h _ ih =>
    rw [Goal.read_items_text h, ih]
    rfl
  | comment h _ ih =>
    rw [Goal.read_items_comment h, ih]
    rfl
  | child h _ _ ih ih' =>
    rw [Goal.read_items_tag h, ih, Except.bind, ih']
    rfl
  | tag h hh _ _ ih ih' =>
    rw [Goal.read_tag h, hh]
    simp only [Except.bind, ih, ih']
    rfl
  | colon h hc _ ih => rw [Goal.read_inline_colon h, if_pos hc, ih]
  | block h lines => rw [Goal.read_inline_block h, lines]
  | inlineText h => rw [Goal.read_inline_text h]
  | noInline hk => rw [Goal.read_inline_none hk]
  | nested h _ hd ih =>
    rw [Goal.read_nested_indent h, ih]
    simp only [Except.bind, Cursor.expect, hd, if_true]
    rfl
  | noNested h => rw [Goal.read_nested_none h]

/-- Items put before those that are read change neither an error nor the cursor. -/
theorem before_eq_ok_iff {is js : List Item} {d : Cursor}
    {r : Except ParseError (List Item × Cursor)} :
    before is r = .ok (js, d) ↔ ∃ ks, r = .ok (ks, d) ∧ is ++ ks = js := map_fst_eq_ok_iff

/-- Where a row of items ends, the parser reads no item, as the grammar says. -/
theorem Reads.of_stop {c d : Cursor} {stop : Kind} {a : Bool} {is : List Item}
    (hl : c.current.lexeme = .eof ∨ c.current.lexeme = .outdent)
    (h : (Goal.items stop a).read c = .ok (is, d)) : Reads (.items stop a) c is d := by
  rw [Goal.read_items_stop hl] at h
  split at h
  · obtain ⟨rfl, rfl⟩ := Prod.mk.inj (Except.ok.inj h)
    exact .stop hl ‹_›
  · simp at h

/-- All that is read at later cursors is in the grammar. -/
def ReadsLater (c : Cursor) : Prop :=
  ∀ {g : Goal} {c' d : Cursor} {is : List Item}, c'.rest.length < c.rest.length →
    g.read c' = .ok (is, d) → Reads g c' is d

/-- What is read behind a token other than the end is read later. -/
theorem ReadsLater.advance {c : Cursor} (h : ReadsLater c) {l : Lexeme}
    (hl : c.current.lexeme = l) (hk : l.kind ≠ .eof) {g : Goal} {d : Cursor} {is : List Item}
    (hread : g.read c.advance = .ok (is, d)) : Reads g c.advance is d :=
  h (c.advance_lt (Cursor.kind_ne_eof hl hk)) hread

section OfRead

variable {c d : Cursor} {is : List Item}

/-- A tag that is read is in the grammar if all that is read later is. -/
theorem Reads.of_read_tag (later : ReadsLater c) (h : Goal.tag.read c = .ok (is, d)) :
    Reads .tag c is d := by
  have hs : c.kind.startsTag = true := Goal.startsTag_of_read_tag h
  rw [Goal.read_tag hs] at h
  obtain ⟨⟨head, b⟩, hh, h⟩ := bind_eq_ok_iff.1 h
  obtain ⟨⟨is, d⟩, hi, h⟩ := bind_eq_ok_iff.1 h
  obtain ⟨⟨js, e⟩, hn, h⟩ := map_eq_ok_iff.1 h
  obtain ⟨rfl, rfl⟩ := Prod.mk.inj h
  have hb := readHead_lt hs hh
  exact .tag hs hh (later hb hi) (later (Nat.lt_of_le_of_lt (Goal.read_le hi) hb) hn)

/-- Items that are read are in the grammar if all that is read later is. -/
theorem Reads.of_read_items {stop : Kind} {a : Bool} (later : ReadsLater c)
    (h : (Goal.items stop a).read c = .ok (is, d)) : Reads (.items stop a) c is d := by
  by_cases hs : c.kind.startsTag = true
  · -- A tag is read at the same cursor, and the other items after it.
    rw [Goal.read_items_tag hs] at h
    obtain ⟨⟨js, e⟩, ht, h⟩ := bind_eq_ok_iff.1 h
    obtain ⟨ks, hm, rfl⟩ := before_eq_ok_iff.1 h
    exact .child hs (of_read_tag later ht) (later (Goal.read_tag_lt ht) hm)
  · cases hl : c.current.lexeme with
    | eof => exact of_stop (.inl hl) h
    | outdent => exact of_stop (.inr hl) h
    | newline =>
      rw [Goal.read_items_newline hl] at h
      exact .newline hl (later.advance hl (by simp [Lexeme.kind]) h)
    | text value =>
      rw [Goal.read_items_text hl] at h
      obtain ⟨ks, hm, rfl⟩ := before_eq_ok_iff.1 h
      exact .text hl (later.advance hl (by simp [Lexeme.kind]) hm)
    | comment value buffered =>
      rw [Goal.read_items_comment hl] at h
      obtain ⟨ks, hm, rfl⟩ := before_eq_ok_iff.1 h
      exact .comment hl (later.advance hl (by simp [Lexeme.kind]) hm)
    | _ =>
      rw [Goal.read_items_unexpected (by simpa using hs)
        (by simp [Cursor.kind, Token.kind, hl, Lexeme.kind])] at h
      simp at h

/-- The content of a line is in the grammar if all that is read later is. -/
theorem Reads.of_read_inline (later : ReadsLater c) (h : Goal.inline.read c = .ok (is, d)) :
    Reads .inline c is d := by
  cases hl : c.current.lexeme with
  | colon =>
    rw [Goal.read_inline_colon hl] at h
    split at h
    · exact .colon hl ‹_› (later.advance hl (by simp [Lexeme.kind]) h)
    · simp at h
  | openTextBlock =>
    rw [Goal.read_inline_block hl] at h
    exact .block hl h
  | text value =>
    rw [Goal.read_inline_text hl] at h
    obtain ⟨rfl, rfl⟩ := Prod.mk.inj (Except.ok.inj h)
    exact .inlineText hl
  | _ =>
    have hk : ∀ k ∈ [Kind.colon, .openTextBlock, .text], c.kind ≠ k := by
      simp [Cursor.kind, Token.kind, hl, Lexeme.kind]
    rw [Goal.read_inline_none hk] at h
    obtain ⟨rfl, rfl⟩ := Prod.mk.inj (Except.ok.inj h)
    exact .noInline hk

/-- A nested block is in the grammar if all that is read later is. -/
theorem Reads.of_read_nested (later : ReadsLater c) (h : Goal.nested.read c = .ok (is, d)) :
    Reads .nested c is d := by
  by_cases hi : c.kind = .indent
  · rw [Goal.read_nested_indent hi] at h
    obtain ⟨⟨js, d'⟩, hj, h⟩ := bind_eq_ok_iff.1 h
    obtain ⟨e, he, h⟩ := map_eq_ok_iff.1 h
    obtain ⟨rfl, rfl⟩ := Prod.mk.inj h
    rw [Cursor.expect] at he
    split at he
    · rename_i hd
      obtain rfl := Except.ok.inj he
      exact .nested hi (later (c.advance_lt (by simp [hi])) hj) hd
    · simp at he
  · rw [Goal.read_nested_none hi] at h
    obtain ⟨rfl, rfl⟩ := Prod.mk.inj (Except.ok.inj h)
    exact .noNested hi

end OfRead

/-- What the parser reads is in the grammar. The induction is on the number of tokens that are
    left, as the readers call each other. -/
theorem Reads.of_read {g : Goal} {c d : Cursor} {is : List Item} (h : g.read c = .ok (is, d)) :
    Reads g c is d := by
  induction hn : c.rest.length using Nat.strongRecOn generalizing g c is d with
  | ind n ih =>
    subst hn
    have later : ReadsLater c := fun hlt h' => ih _ hlt h' rfl
    cases g with
    | items stop a => exact of_read_items later h
    | tag => exact of_read_tag later h
    | inline => exact of_read_inline later h
    | nested => exact of_read_nested later h

/-- The parser reads what is in the grammar, and nothing else. -/
theorem read_eq_ok_iff {g : Goal} {c d : Cursor} {is : List Item} :
    g.read c = .ok (is, d) ↔ Reads g c is d := ⟨Reads.of_read, Reads.read⟩

/-! ## Moving on -/

/-- A cursor that moves on keeps the tokens behind it as they are. -/
theorem Cursor.advance_suffix (c : Cursor) : c.advance.rest <:+ c.rest := by
  by_cases h : c.kind = .eof
  · exact congrArg Cursor.rest (advance_of_eof h) ▸ List.suffix_rfl
  · rw [rest_advance h]
    exact List.suffix_cons _ _

theorem Cursor.expect_suffix {c d : Cursor} {k : Kind} (h : c.expect k = .ok d) :
    d.rest <:+ c.rest := by
  rw [expect] at h
  split at h
  · exact Except.ok.inj h ▸ c.advance_suffix
  · simp at h

/-- Behind a list come the tokens that followed it. -/
theorem listedAttributes_suffix (c : Cursor) : (listedAttributes c).2.rest <:+ c.rest := by
  fun_induction listedAttributes c with
  | case1 c _ _ _ attrs d h ih =>
    rw [h] at ih
    exact ih.trans c.advance_suffix
  | case2 c => exact List.suffix_rfl

/-- Behind shorthands and lists come the tokens that followed them. -/
theorem attributeRun_suffix {c d : Cursor} {attrs : List Attribute}
    (h : attributeRun c = .ok (attrs, d)) : d.rest <:+ c.rest := by
  fun_induction attributeRun c generalizing attrs with
  | case1 c _ _ ih =>
    obtain ⟨as, he, -⟩ := map_fst_eq_ok_iff.1 h
    exact (ih he).trans c.advance_suffix
  | case2 c _ _ ih =>
    obtain ⟨as, he, -⟩ := map_fst_eq_ok_iff.1 h
    exact (ih he).trans c.advance_suffix
  | case3 => simp at h
  | case4 c _ e he ih =>
    obtain ⟨as, hf, -⟩ := map_fst_eq_ok_iff.1 h
    exact (ih hf).trans
      ((Cursor.expect_suffix he).trans ((listedAttributes_suffix _).trans c.advance_suffix))
  | case5 => exact (Prod.mk.inj (Except.ok.inj h)).2 ▸ List.suffix_rfl

/-- Behind a head come the tokens that followed it. -/
theorem readHead_suffix {c d : Cursor} {head : TagHead} (h : readHead c = .ok (head, d)) :
    d.rest <:+ c.rest := by
  rw [readHead] at h
  split at h
  · obtain ⟨as, he, -⟩ := map_fst_eq_ok_iff.1 h
    exact (attributeRun_suffix he).trans c.advance_suffix
  · obtain ⟨as, he, -⟩ := map_fst_eq_ok_iff.1 h
    exact attributeRun_suffix he

/-- Behind a text block come the tokens that followed it. -/
theorem textBlockItems_suffix {c d : Cursor} {is : List Item}
    (h : textBlockItems c = .ok (is, d)) : d.rest <:+ c.rest := by
  fun_induction textBlockItems c generalizing is with
  | case1 c _ _ ih =>
    obtain ⟨js, he, -⟩ := map_fst_eq_ok_iff.1 h
    exact (ih he).trans c.advance_suffix
  | case2 c _ ih =>
    obtain ⟨js, he, -⟩ := map_fst_eq_ok_iff.1 h
    exact (ih he).trans c.advance_suffix
  | case3 c => exact (Prod.mk.inj (Except.ok.inj h)).2 ▸ c.advance_suffix
  | case4 => simp at h

/-- Reading moves on in the tokens. -/
theorem Reads.suffix {g : Goal} {c d : Cursor} {is : List Item} (h : Reads g c is d) :
    d.rest <:+ c.rest := by
  induction h with
  | stop | noInline | noNested => exact List.suffix_rfl
  | newline _ _ ih | text _ _ ih | comment _ _ ih | colon _ _ _ ih =>
    exact ih.trans (Cursor.advance_suffix _)
  | child _ _ _ ih ih' => exact ih'.trans ih
  | tag _ hh _ _ ih ih' => exact ih'.trans (ih.trans (readHead_suffix hh))
  | block _ lines => exact (textBlockItems_suffix lines).trans (Cursor.advance_suffix _)
  | inlineText => exact Cursor.advance_suffix _
  | nested _ _ _ ih => exact (Cursor.advance_suffix _).trans (ih.trans (Cursor.advance_suffix _))

end SlotMarkup
