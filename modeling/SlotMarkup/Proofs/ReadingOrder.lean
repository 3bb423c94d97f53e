import SlotMarkup.Proofs.KindGrammar
import SlotMarkup.Proofs.TokenCover

/-!
# The order of reading

A markup tree can be read off from the front: of a tag its name, its attributes, and then
what is in it (`blockEntries`). The same can be read off its tokens one by one
(`entriesFrom`). What a token says depends on those before it in three ways only. A
shorthand gives a tag its name if no part of a head is just before it. A line break is text
inside a text block. And a text that is a line of its own is joined to the one before.

* `Reads.entries`: what the parser reads is what the tokens say, which it passes on;
* `Block.entries_ofTokens`: nothing is lost, said twice or moved.
-/

namespace SlotMarkup

/-! ## Trees -/

/-- What is read off a tree or a token. -/
inductive Entry
  | name (s : String)
  | attr (name : String) (value : AttrValue)
  | text (value : String)
  | comment (value : String) (buffered : Bool)
  deriving DecidableEq, Repr

/-- What an attribute says. -/
def Attribute.entry (a : Attribute) : Entry := .attr a.name a.value

mutual

/-- What an item says, from the front. -/
def itemEntries : Item → List Entry
  | .block b => blockEntries b
  | .tag t => tagEntries t
  | .text t => [.text t.value]
  | .comment c => [.comment c.value c.buffered]

/-- What some items say. -/
def itemsEntries : List Item → List Entry
  | [] => []
  | i :: is => itemEntries i ++ itemsEntries is

/-- What a block says. -/
def blockEntries : BlockOf Item → List Entry
  | ⟨nodes, _⟩ => itemsEntries nodes

/-- What a body says. -/
def bodyEntries : Option (BlockOf Item) → List Entry
  | none => []
  | some b => blockEntries b

/-- What a tag says: its name, its attributes and its body. -/
def tagEntries : TagOf Item → List Entry
  | ⟨name, attrs, body, _⟩ => .name name :: (attrs.map Attribute.entry ++ bodyEntries body)

end

@[simp] theorem itemsEntries_append (is js : List Item) :
    itemsEntries (is ++ js) = itemsEntries is ++ itemsEntries js := by
  induction is with
  | nil => rfl
  | cons i is ih => rw [List.cons_append, itemsEntries, itemsEntries, ih, List.append_assoc]

theorem itemsEntries_single (i : Item) : itemsEntries [i] = itemEntries i := by
  rw [itemsEntries, itemsEntries, List.append_nil]

/-! ## Tokens -/

section Past

/-! The kinds of the tokens before a token, the last one first. -/

variable (past : List Kind)

/-- The token just before is a part of the head of a tag. -/
def behindHead : Bool := past.head?.any headEnds.contains

/-- Of the starts and the ends of text blocks, the last one before is a start. -/
def inTextBlock : Bool :=
  (past.find? fun k => k == .openTextBlock || k == .closeTextBlock) == some .openTextBlock

/-- A text here is a line of its own: it is not the text of a tag, nor in a text block. -/
def ownLine : Bool := !behindHead past && !inTextBlock past

/-- What comes before is a text that is a line of its own, and line breaks after it. -/
def behindLine : Bool :=
  match past.dropWhile (· == .newline) with
  | .text :: older => ownLine older
  | _ => false

/-- What a token says after others. -/
def Token.entries (t : Token) : List Entry :=
  match t.lexeme with
  | .tag name => [.name name]
  | .idShorthand x =>
    (if behindHead past then [] else [.name defaultTag]) ++ [.attr "id" (quoted x)]
  | .classShorthand x =>
    (if behindHead past then [] else [.name defaultTag]) ++ [.attr "class" (quoted x)]
  | .attr name value => [.attr name value]
  | .comment value buffered => [.comment value buffered]
  | .text value =>
    if ownLine past then
      (if behindLine past then [.text "\n"] else []) ++ if value.isEmpty then [] else [.text value]
    else [.text value]
  | .newline => if inTextBlock past then [.text "\n"] else []
  | _ => []

end Past

/-- What some tokens say after others. -/
def entriesFrom (past : List Kind) : List Token → List Entry
  | [] => []
  | t :: ts => t.entries past ++ entriesFrom (t.kind :: past) ts

/-- The tokens before the end of the template. -/
def beforeEof (ts : List Token) : List Token := ts.takeWhile (·.kind != .eof)

theorem inTextBlock_cons {past : List Kind} {k : Kind} (ho : k ≠ .openTextBlock)
    (hc : k ≠ .closeTextBlock) : inTextBlock (k :: past) = inTextBlock past := by
  simp [inTextBlock, ho, hc]

/-- Only breaks and texts leave a reader behind a line of text. -/
theorem behindLine_of_head {past : List Kind} {k : Kind} (hn : k ≠ .newline) (ht : k ≠ .text) :
    behindLine (k :: past) = false := by
  rw [behindLine, List.dropWhile_cons_of_neg (by simpa using hn)]
  split
  · rename_i h
    exact absurd (List.cons.inj h).1 ht
  · rfl

/-- In the head of a tag no text is a line of its own, also one in a text block. -/
theorem ownLine_of_behindHead {past : List Kind} (h : behindHead past = true) :
    ownLine past = false := by simp [ownLine, h]

/-! ## Cursors -/

namespace Cursor

variable {c : Cursor} {past : List Kind}

/-- What is said from a cursor up to the end of the template. -/
def entries (past : List Kind) (c : Cursor) : List Entry := entriesFrom past (beforeEof c.rest)

/-- At the end there is nothing to read. -/
theorem entries_of_eof (h : c.kind = .eof) : c.entries past = [] := by
  match c, h with
  | ⟨_, []⟩, _ => rfl
  | ⟨_, t :: ts⟩, h =>
    have ht : t.kind = .eof := h
    simp [entries, beforeEof, ht, entriesFrom]

/-- A token is read before those behind it. -/
theorem entries_eq_append (h : c.kind ≠ .eof) :
    c.entries past = c.current.entries past ++ c.advance.entries (c.kind :: past) := by
  have hk : (c.current.kind != .eof) = true := by simpa [kind] using h
  rw [entries, beforeEof, rest_advance h, List.takeWhile_cons, if_pos hk]
  rfl

/-- What the next token says is said first. -/
theorem entries_of_lexeme {l : Lexeme} (h : c.current.lexeme = l) (hl : l.kind ≠ .eof) :
    c.entries past =
      Token.entries past ⟨l, c.current.span⟩ ++ c.advance.entries (l.kind :: past) := by
  subst h
  exact entries_eq_append (kind_ne_eof rfl hl)

/-- A token without a payload that says nothing. -/
theorem entries_of_kind {l : Lexeme} (h : c.kind = l.kind) (hl : l.kind.isPlain = true)
    (hne : l.kind ≠ .eof) (hs : ∀ span, Token.entries past ⟨l, span⟩ = []) :
    c.entries past = c.advance.entries (l.kind :: past) := by
  rw [entries_of_lexeme (Lexeme.eq_of_kind h hl) hne, hs, List.nil_append]

/-- A shorthand says what it is short for, behind the name of a tag that it starts. -/
theorem entries_of_shorthand {l : Lexeme} {x name : String} (h : c.current.lexeme = l)
    (hl : l = .idShorthand x ∧ name = "id" ∨ l = .classShorthand x ∧ name = "class") :
    c.entries past = (if behindHead past then [] else [.name defaultTag]) ++
      .attr name (quoted x) :: c.advance.entries (l.kind :: past) := by
  rcases hl with ⟨rfl, rfl⟩ | ⟨rfl, rfl⟩
  all_goals
    rw [entries_of_lexeme h (by simp [Lexeme.kind]), Token.entries, List.append_assoc]
    rfl

/-- Between the items of a block: `a` says that the item before is a line of text. What could
    go on with the head of a tag is none of it. -/
structure Between (a : Bool) (past : List Kind) (c : Cursor) : Prop where
  block : inTextBlock past = false
  line : behindLine past = a
  head : behindHead past = true →
    c.kind ≠ .text ∧ c.kind ≠ .idShorthand ∧ c.kind ≠ .classShorthand

/-- The tokens behind which an item starts or has come to its end. Nothing goes on there with a
    head or with a line of text. -/
def itemBounds : List Kind := [.comment, .colon, .indent, .outdent, .closeTextBlock]

/-- Behind the head of a tag that has come to its end. -/
structure EndsHeadAt (past : List Kind) (c : Cursor) : Prop where
  block : inTextBlock past = false
  head : behindHead past = true
  stop : c.kind ≠ .idShorthand ∧ c.kind ≠ .classShorthand

theorem between_cons {k : Kind} (hk : k ∈ itemBounds)
    (h : k ≠ .closeTextBlock → inTextBlock past = false) (c : Cursor) :
    Between false (k :: past) c := by
  have hnone : ∀ l ∈ itemBounds, l ∉ headEnds ∧ l ≠ .openTextBlock ∧ l ≠ .newline ∧ l ≠ .text := by
    decide
  obtain ⟨hend, hopen, hn, ht⟩ := hnone k hk
  refine ⟨?_, behindLine_of_head hn ht, fun hb => absurd hb ?_⟩
  · by_cases hc : k = .closeTextBlock
    · simp [inTextBlock, hc]
    · rw [inTextBlock_cons hopen hc, h hc]
  · simpa [behindHead] using hend

end Cursor

/-! ## Heads and text blocks -/

/-- The attributes of a list are read in the order of their tokens. -/
theorem listedAttributes_entries (c : Cursor) (past : List Kind) (h : inTextBlock past = false) :
    ∃ past', c.entries past = (listedAttributes c).1.map Attribute.entry ++
        (listedAttributes c).2.entries past' ∧ inTextBlock past' = false := by
  fun_induction listedAttributes c generalizing past with
  | case1 c name value hl attrs d hd ih =>
    obtain ⟨past', hc, hb⟩ := ih (.attr :: past) h
    rw [hd] at hc
    refine ⟨past', ?_, hb⟩
    rw [Cursor.entries_of_lexeme hl (by simp [Lexeme.kind]), Lexeme.kind, hc]
    rfl
  | case2 c => exact ⟨past, rfl, h⟩

/-- The attributes of a head are what the tokens after its start say. -/
theorem attributeRun_entries {c d : Cursor} {attrs : List Attribute} (past : List Kind)
    (h : attributeRun c = .ok (attrs, d)) (hb : inTextBlock past = false)
    (hh : behindHead past = true) : ∃ past',
      c.entries past = attrs.map Attribute.entry ++ d.entries past' ∧ d.EndsHeadAt past' := by
  fun_induction attributeRun c generalizing attrs past with
  | case1 c x hl ih =>
    obtain ⟨as, hs, rfl⟩ := map_fst_eq_ok_iff.1 h
    obtain ⟨past', hc, hd⟩ := ih (.idShorthand :: past) hs hb rfl
    refine ⟨past', ?_, hd⟩
    rw [Cursor.entries_of_shorthand hl (.inl ⟨rfl, rfl⟩), if_pos hh, Lexeme.kind, hc]
    rfl
  | case2 c x hl ih =>
    obtain ⟨as, hs, rfl⟩ := map_fst_eq_ok_iff.1 h
    obtain ⟨past', hc, hd⟩ := ih (.classShorthand :: past) hs hb rfl
    refine ⟨past', ?_, hd⟩
    rw [Cursor.entries_of_shorthand hl (.inr ⟨rfl, rfl⟩), if_pos hh, Lexeme.kind, hc]
    rfl
  | case3 => simp at h
  | case4 c hl e he ih =>
    obtain ⟨as, hs, rfl⟩ := map_fst_eq_ok_iff.1 h
    obtain ⟨past₁, hlist, hb₁⟩ := listedAttributes_entries c.advance
      (.openAttributes :: past) hb
    rw [Cursor.expect] at he
    split at he
    · rename_i hclose
      obtain rfl := Except.ok.inj he
      obtain ⟨past', hc, hd⟩ := ih (.closeAttributes :: past₁) hs hb₁ rfl
      refine ⟨past', ?_, hd⟩
      rw [Cursor.entries_of_lexeme hl (by simp [Lexeme.kind]), Lexeme.kind, hlist,
        Cursor.entries_of_kind (l := .closeAttributes) hclose rfl (by decide) (fun _ => rfl),
        Lexeme.kind, hc, List.map_append, List.append_assoc]
      rfl
    · simp at he
  | case5 c hid hclass hopen =>
    obtain ⟨rfl, rfl⟩ := Prod.mk.inj (Except.ok.inj h)
    refine ⟨past, rfl, hb, hh, fun hk => ?_, fun hk => ?_⟩
    · obtain ⟨x, hx⟩ := Lexeme.eq_idShorthand hk
      exact hid x hx
    · obtain ⟨x, hx⟩ := Lexeme.eq_classShorthand hk
      exact hclass x hx

/-- What a head says: its name, which a shorthand at its start leaves out, and its
    attributes. -/
theorem readHead_entries {c d : Cursor} {head : TagHead} (past : List Kind)
    (h : readHead c = .ok (head, d)) (hc : c.kind.startsTag = true)
    (hb : inTextBlock past = false) (hh : behindHead past = true →
      c.kind ≠ .idShorthand ∧ c.kind ≠ .classShorthand) : ∃ past',
      c.entries past = .name head.name :: (head.attrs.map Attribute.entry ++ d.entries past') ∧
        d.EndsHeadAt past' := by
  have hbehind (hk : c.kind = .idShorthand ∨ c.kind = .classShorthand) :
      behindHead past = false := Bool.eq_false_iff.2 fun hp => by
    rcases hk with hk | hk
    · exact (hh hp).1 hk
    · exact (hh hp).2 hk
  rw [readHead] at h
  cases hl : c.current.lexeme with
  | tag name =>
    rw [hl] at h
    obtain ⟨as, hs, rfl⟩ := map_fst_eq_ok_iff.1 h
    obtain ⟨past', hrun, hd⟩ := attributeRun_entries (.tag :: past) hs hb rfl
    refine ⟨past', ?_, hd⟩
    rw [Cursor.entries_of_lexeme hl (by simp [Lexeme.kind]), Lexeme.kind, hrun]
    rfl
  | idShorthand x =>
    -- No part of a head is before the shorthand, so that it names the tag, and is then an
    -- attribute like those after it.
    have hk : c.kind = .idShorthand := by rw [Cursor.kind, Token.kind, hl]; rfl
    rw [hl] at h
    obtain ⟨as, hs, rfl⟩ := map_fst_eq_ok_iff.1 h
    obtain ⟨bs, hr, rfl⟩ := map_fst_eq_ok_iff.1 ((attributeRun_idShorthand hl).symm.trans hs)
    obtain ⟨past', hrun, hd⟩ := attributeRun_entries (.idShorthand :: past) hr hb rfl
    refine ⟨past', ?_, hd⟩
    rw [Cursor.entries_of_shorthand hl (.inl ⟨rfl, rfl⟩), hbehind (.inl hk), Lexeme.kind, hrun]
    rfl
  | classShorthand x =>
    have hk : c.kind = .classShorthand := by rw [Cursor.kind, Token.kind, hl]; rfl
    rw [hl] at h
    obtain ⟨as, hs, rfl⟩ := map_fst_eq_ok_iff.1 h
    obtain ⟨bs, hr, rfl⟩ := map_fst_eq_ok_iff.1 ((attributeRun_classShorthand hl).symm.trans hs)
    obtain ⟨past', hrun, hd⟩ := attributeRun_entries (.classShorthand :: past) hr hb rfl
    refine ⟨past', ?_, hd⟩
    rw [Cursor.entries_of_shorthand hl (.inr ⟨rfl, rfl⟩), hbehind (.inr hk), Lexeme.kind, hrun]
    rfl
  | _ => simp [Cursor.kind, Token.kind, hl, Lexeme.kind, Kind.startsTag] at hc

/-- A text block says its lines and the line breaks between them. -/
theorem textBlockItems_entries {c d : Cursor} {is : List Item} (past : List Kind)
    (h : textBlockItems c = .ok (is, d)) (hb : inTextBlock past = true) : ∃ past',
      c.entries past = itemsEntries is ++ d.entries past' ∧ d.Between false past' := by
  fun_induction textBlockItems c generalizing is past with
  | case1 c value hl ih =>
    obtain ⟨js, hs, rfl⟩ := map_fst_eq_ok_iff.1 h
    obtain ⟨past', hc, hd⟩ := ih (.text :: past) hs hb
    refine ⟨past', ?_, hd⟩
    rw [Cursor.entries_of_lexeme hl (by simp [Lexeme.kind]), Lexeme.kind, hc, Token.entries]
    simp [ownLine, hb, itemsEntries, itemEntries]
  | case2 c hl ih =>
    obtain ⟨js, hs, rfl⟩ := map_fst_eq_ok_iff.1 h
    obtain ⟨past', hc, hd⟩ := ih (.newline :: past) hs hb
    refine ⟨past', ?_, hd⟩
    rw [Cursor.entries_of_lexeme hl (by simp [Lexeme.kind]), Lexeme.kind, hc, Token.entries,
      if_pos hb]
    rfl
  | case3 c hl =>
    obtain ⟨rfl, rfl⟩ := Prod.mk.inj (Except.ok.inj h)
    refine ⟨.closeTextBlock :: past, ?_, Cursor.between_cons (by decide) (by simp) _⟩
    rw [Cursor.entries_of_lexeme hl (by simp [Lexeme.kind])]
    rfl
  | case4 => simp at h

/-! ## Items -/

/-- What the tokens before a cursor have to be for a goal to be read there. -/
def Goal.Fits : Goal → List Kind → Cursor → Prop
  | items _ a, past, c => c.Between a past
  | tag, past, c => ∃ a, c.Between a past
  | inline, past, c => c.EndsHeadAt past
  | nested, past, c => c.Between false past

/-- What they are after it. -/
def Goal.Leaves : Goal → List Kind → Cursor → Prop
  | items _ _, past, _ => inTextBlock past = false
  | _, past, c => c.Between false past

/-- A text is read as its token, with the break before it if it is behind another one. -/
theorem textItems_entries {past : List Kind} {a : Bool} (hown : ownLine past = true)
    (hline : behindLine past = a) (value : String) (span : Span) :
    itemsEntries (textItems a value span) = Token.entries past ⟨.text value, span⟩ := by
  simp only [Token.entries, if_pos hown, hline, textItems, itemsEntries_append]
  congr 1
  · cases a <;> rfl
  · split <;> rfl

/-- What is read for a goal is what the tokens say up to the cursor after it. -/
theorem Reads.entries {g : Goal} {c d : Cursor} {is : List Item} (h : Reads g c is d)
    (past : List Kind) (hg : g.Fits past c) : ∃ past',
      c.entries past = itemsEntries is ++ d.entries past' ∧ g.Leaves past' d := by
  induction h generalizing past with
  | stop => exact ⟨past, rfl, hg.block⟩
  | @newline c stop a is d hl _ ih =>
    obtain ⟨past', hc, hd⟩ := ih (.newline :: past) ⟨hg.block, hg.line,
      (absurd · Bool.false_ne_true)⟩
    refine ⟨past', ?_, hd⟩
    rw [Cursor.entries_of_lexeme hl (by simp [Lexeme.kind]), Lexeme.kind, hc, Token.entries,
      hg.block]
    rfl
  | @text c stop a value is d hl _ ih =>
    -- A text just behind a head is one of the tag, so this one is a line of its own.
    have hk : c.kind = .text := by rw [Cursor.kind, Token.kind, hl]; rfl
    have hhead : behindHead past = false :=
      Bool.eq_false_iff.2 fun hp => (hg.head hp).1 hk
    have hown : ownLine past = true := by simp [ownLine, hhead, hg.block]
    obtain ⟨past', hc, hd⟩ := ih (.text :: past) ⟨hg.block, hown, (absurd · Bool.false_ne_true)⟩
    refine ⟨past', ?_, hd⟩
    rw [Cursor.entries_of_lexeme hl (by simp [Lexeme.kind]), Lexeme.kind, hc, itemsEntries_append,
      textItems_entries hown hg.line, List.append_assoc]
  | @comment c stop a value buffered is d hl _ ih =>
    obtain ⟨past', hc, hd⟩ := ih (.comment :: past)
      (Cursor.between_cons (by decide) (fun _ => hg.block) _)
    refine ⟨past', ?_, hd⟩
    rw [Cursor.entries_of_lexeme hl (by simp [Lexeme.kind]), Lexeme.kind, hc]
    rfl
  | child _ _ _ ih ih' =>
    obtain ⟨past₁, hc, hd⟩ := ih past ⟨_, hg⟩
    obtain ⟨past', hd', he⟩ := ih' past₁ hd
    exact ⟨past', by rw [hc, hd', itemsEntries_append, List.append_assoc], he⟩
  | @tag c head b is d js e hc hh _ _ ih ih' =>
    obtain ⟨a, hbetween⟩ := hg
    obtain ⟨past₁, hhead, hb⟩ := readHead_entries past hh hc hbetween.block
      fun hp => (hbetween.head hp).2
    obtain ⟨past₂, hinline, hd⟩ := ih past₁ hb
    obtain ⟨past', hnested, he⟩ := ih' past₂ hd
    refine ⟨past', ?_, he⟩
    rw [hhead, hinline, hnested, itemsEntries_single, itemEntries, Tag.close, Block.ofItems,
      tagEntries, bodyEntries, blockEntries]
    simp
  | @colon c is d hl hc _ ih =>
    obtain ⟨past', hrest, hd⟩ := ih (.colon :: past)
      ⟨false, Cursor.between_cons (by decide) (fun _ => hg.block) _⟩
    refine ⟨past', ?_, hd⟩
    rw [Cursor.entries_of_lexeme hl (by simp [Lexeme.kind]), Lexeme.kind, hrest]
    rfl
  | @block c is d hl lines =>
    obtain ⟨past', hc, hd⟩ := textBlockItems_entries (.openTextBlock :: past) lines rfl
    refine ⟨past', ?_, hd⟩
    rw [Cursor.entries_of_lexeme hl (by simp [Lexeme.kind]), Lexeme.kind, hc]
    rfl
  | @inlineText c value hl =>
    -- The text of a tag is no line of its own, so the next one is not joined to it.
    have hown := ownLine_of_behindHead hg.head
    refine ⟨.text :: past, ?_, hg.block, hown, (absurd · Bool.false_ne_true)⟩
    rw [Cursor.entries_of_lexeme hl (by simp [Lexeme.kind]), Token.entries, hown]
    rfl
  | @noInline c hk =>
    have hline : behindLine past = false := by
      cases past with
      | nil => rfl
      | cons k past =>
        have hmem : k ∈ headEnds := by simpa [behindHead] using hg.head
        exact behindLine_of_head (by rintro rfl; simp [headEnds] at hmem)
          (by rintro rfl; simp [headEnds] at hmem)
    exact ⟨past, rfl, hg.block, hline, fun _ => ⟨hk .text (by simp), hg.stop⟩⟩
  | @nested c is d hi _ hd ih =>
    obtain ⟨past₁, hc, hb⟩ := ih (.indent :: past)
      (Cursor.between_cons (by decide) (fun _ => hg.block) _)
    refine ⟨.outdent :: past₁, ?_, Cursor.between_cons (by decide) (fun _ => hb) _⟩
    -- The two tokens around the items say nothing.
    rw [Cursor.entries_of_kind (l := .indent) hi rfl (by decide) (fun _ => rfl), Lexeme.kind, hc,
      Cursor.entries_of_kind (l := .outdent) hd rfl (by decide) (fun _ => rfl), Lexeme.kind,
      itemsEntries_single, itemEntries, nestedBlock, blockEntries]
  | noNested => exact ⟨past, rfl, hg⟩

/-- Parsing loses, repeats and moves nothing: what a tree says, from the front, is what the
    tokens before the end of the template say, one after the other. -/
theorem Block.entries_ofTokens {tokens : List Token} {block : Block}
    (h : Block.ofTokens tokens = .ok block) :
    blockEntries block = entriesFrom [] (beforeEof tokens) := by
  rw [Block.ofTokens_eq] at h
  obtain ⟨⟨items, d⟩, hread, rfl⟩ := map_eq_ok_iff.1 h
  have hreads := Reads.of_read hread
  obtain ⟨past', hc, -⟩ := hreads.entries [] ⟨rfl, rfl, (absurd · Bool.false_ne_true)⟩
  rw [Cursor.entries_of_eof hreads.kind_stop, List.append_nil] at hc
  exact hc.symm

/-- Two lines of text, an empty one and a tag with a text block, which starts with a
    shorthand. -/
theorem Block.entries_ofTokens_lines :
    ∃ block, Block.ofTokens (([.text "a", .newline, .text "", .newline, .classShorthand "b",
        .openAttributes, .attr "c" .bare, .closeAttributes, .idShorthand "d", .openTextBlock,
        .text "e", .newline, .text "f", .closeTextBlock, .eof, .tag "g"] : List Lexeme).map
          (⟨·, .nowhere⟩)) = .ok block ∧
      blockEntries block = [.text "a", .text "\n", .name "div", .attr "class" (.raw "'b'"),
        .attr "c" .bare, .attr "id" (.raw "'d'"), .text "e", .text "\n", .text "f"] := by
  have hread : (Block.ofTokens (([.text "a", .newline, .text "", .newline, .classShorthand "b",
      .openAttributes, .attr "c" .bare, .closeAttributes, .idShorthand "d", .openTextBlock,
      .text "e", .newline, .text "f", .closeTextBlock, .eof, .tag "g"] : List Lexeme).map
        (⟨·, .nowhere⟩))).toOption.isSome = true := by decide +kernel
  obtain ⟨block, hblock⟩ := Option.isSome_iff_exists.1 hread
  exact ⟨block, ok_of_toOption hblock,
    (Block.entries_ofTokens (ok_of_toOption hblock)).trans (by decide)⟩

end SlotMarkup
