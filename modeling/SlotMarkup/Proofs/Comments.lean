import SlotMarkup.Proofs.Lookahead
import SlotMarkup.Proofs.ReadingOrder

/-!
# Templates without their comments

No comment shows in a tree. A template can do without them: if they are left out of its
tokens, the rest is accepted, and what is rendered is the same up to line feeds. For a comment
ends a run of lines of text. Without it the lines before and after are joined, with one more
line feed between them for each place where only comments had parted two lines
(`partedLines`).

* `commentsEnd_of_scan`: nothing is nested below a comment, and its line ends with it;
* `Stripped.reads`: the tokens are read alike without the comments among them;
* `textEntries_withoutComments`: the texts that are gained, told from the tokens;
* `Block.toValue_withoutComments`: the tree is the same if no lines are parted, and only then.
-/

namespace SlotMarkup

/-! ## The texts of a tree -/

mutual

/-- The number of texts in a value. -/
def Value.textCount : Value → Nat
  | .node ⟨_, _, _, children, _⟩ => childrenTextCount children
  | _ => 0

/-- The number of texts in some values. -/
def valuesTextCount : List Value → Nat
  | [] => 0
  | v :: vs => v.textCount + valuesTextCount vs

/-- The number of texts in the content of a node. -/
def childrenTextCount : Option (Children Value) → Nat
  | none => 0
  | some (.text _) => 1
  | some (.list vs) => valuesTextCount vs

end

theorem valuesTextCount_append (vs ws : List Value) :
    valuesTextCount (vs ++ ws) = valuesTextCount vs + valuesTextCount ws := by
  induction vs with
  | nil => exact (Nat.zero_add _).symm
  | cons v vs ih => rw [List.cons_append, valuesTextCount, valuesTextCount, ih, Nat.add_assoc]

/-- A group has no texts but those of its children. -/
theorem childrenTextCount_content (vs : List Value) :
    childrenTextCount (contentOf (gather vs)) = valuesTextCount vs := by
  match vs with
  | [] => rfl
  | [.node ⟨tag, key, attrs, children, reserved⟩] =>
    rw [gather, contentOf, valuesTextCount, valuesTextCount, Value.textCount, Nat.add_zero]
    split
    · cases children <;> rfl
    · rfl
  | [.undefined] | [.null] | [.bool _] | [.number _] | [.str _] | [.list _] | [.dict _]
  | [.handler _] | [.foreign _] => rfl
  | v :: w :: vs => rfl

/-- Gathering values makes no text and loses none. -/
theorem textCount_gather (vs : List Value) :
    ((gather vs).getD .undefined).textCount = valuesTextCount vs := by
  match vs with
  | [] => rfl
  | [v] => exact (Nat.add_zero _).symm
  | _ :: _ :: _ => rfl

/-- A tree has the texts of its block. -/
theorem textCount_toValue (b : Block) : b.toValue.textCount = valuesTextCount (blockValues b) :=
  textCount_gather _

/-- Whether a text is read off. -/
def Entry.isText : Entry → Bool
  | text _ => true
  | _ => false

/-- The number of texts that are read off. -/
def textEntries (es : List Entry) : Nat := es.countP Entry.isText

@[simp] theorem textEntries_append (es fs : List Entry) :
    textEntries (es ++ fs) = textEntries es + textEntries fs := List.countP_append

/-- No attribute is a text. -/
theorem textEntries_attributes (attrs : List Attribute) :
    textEntries (attrs.map Attribute.entry) = 0 := by
  rw [textEntries, List.countP_eq_zero]
  rintro e he
  obtain ⟨a, -, rfl⟩ := List.mem_map.1 he
  simp [Attribute.entry, Entry.isText]

mutual

/-- An item stands for as many texts as are written in it. -/
theorem textCount_item : (i : Item) →
    valuesTextCount (itemValues i) = textEntries (itemEntries i)
  | .block b => by rw [itemValues, itemEntries, textCount_block b]
  | .tag t => by
    rw [itemValues, itemEntries, valuesTextCount, valuesTextCount, textCount_tag t, Nat.add_zero]
  | .text _ => rfl
  | .comment _ => rfl

theorem textCount_items : (is : List Item) →
    valuesTextCount (itemsValues is) = textEntries (itemsEntries is)
  | [] => rfl
  | i :: is => by
    rw [itemsValues, itemsEntries, valuesTextCount_append, textEntries_append, textCount_item i,
      textCount_items is]

theorem textCount_block : (b : BlockOf Item) →
    valuesTextCount (blockValues b) = textEntries (blockEntries b)
  | ⟨nodes, _⟩ => by rw [blockValues, blockEntries, textCount_items nodes]

theorem textCount_body : (b : Option (BlockOf Item)) →
    valuesTextCount (bodyValues b) = textEntries (bodyEntries b)
  | none => rfl
  | some b => by rw [bodyValues, bodyEntries, textCount_block b]

theorem textCount_tag : (t : TagOf Item) →
    (tagValue t).textCount = textEntries (tagEntries t)
  | ⟨name, attrs, body, _⟩ => by
    rw [tagValue, tagEntries, Node.make, Value.textCount, childrenTextCount_content,
      textCount_body body, ← List.singleton_append, textEntries_append, textEntries_append,
      textEntries_attributes, Nat.zero_add]
    exact (Nat.zero_add _).symm

end

/-! ## Comments among tokens -/

/-- The tokens that are no comments. -/
def withoutComments (ts : List Token) : List Token := ts.filter (·.kind != .comment)

theorem withoutComments_comment {t : Token} (h : t.kind = .comment) (ts : List Token) :
    withoutComments (t :: ts) = withoutComments ts := List.filter_cons_of_neg (by simp [h])

/-- A token that is no comment stays. -/
theorem withoutComments_cons {t : Token} (h : t.kind ≠ .comment) (ts : List Token) :
    withoutComments (t :: ts) = t :: withoutComments ts :=
  List.filter_cons_of_pos (by simpa using h)

/-- A line ends behind every comment. -/
def CommentsEnd : List Token → Prop
  | [] => True
  | t :: ts => (t.kind = .comment → EndsLine ts) ∧ CommentsEnd ts

/-- Tokens without comments may stand before any comments. -/
theorem commentsEnd_append {ts us : List Token} (h : ∀ t ∈ ts, t.kind ≠ .comment)
    (hus : CommentsEnd us) : CommentsEnd (ts ++ us) := by
  induction ts with
  | nil => exact hus
  | cons t ts ih =>
    obtain ⟨ht, hts⟩ := List.forall_mem_cons.1 h
    exact ⟨fun hk => absurd hk ht, ih hts⟩

/-- Without comments there is no end of a line to look for. -/
theorem commentsEnd_of_none {ts : List Token} (h : ∀ t ∈ ts, t.kind ≠ .comment) :
    CommentsEnd ts := List.append_nil ts ▸ commentsEnd_append h trivial

/-- There is no comment among the tags of a line. -/
theorem IsChain.kind_ne_comment {ts : List Token} (h : IsChain ts) :
    ∀ t ∈ ts, t.kind ≠ .comment := by
  intro t ht hk
  rcases h.mem t ht with hs | hm
  · have := hs.kind
    simp [hk, Kind.startsTag] at this
  · simp [hk, chainKinds] at hm

/-- No comment opens a line. -/
theorem openLine_ne_comment {levels inner : List Nat} {first : Bool} {indent : Nat}
    {ls : List Lexeme} (h : openLine levels first indent = some (ls, inner)) :
    ∀ l ∈ ls, l.kind ≠ .comment := by
  rcases openLine_cases h with ⟨-, rfl, -⟩ | ⟨-, rfl, -⟩ | ⟨n, -, -, rfl, -⟩
  · simp [Lexeme.kind]
  · cases first <;> simp [Lexeme.kind]
  · simp [Lexeme.kind]

/-- What follows a comment is on another line. -/
theorem After.endsLine {d : Nat} {ts : List Token} {m : Option Span}
    (h : After .comment d ts m) : EndsLine ts := by
  cases h with
  | line hts => exact hts (by simp)
  | nested hb => simp at hb
  | stray hb => simp [Before.isText] at hb

/-- Comments end their lines in every text that is scanned. -/
theorem commentsEnd_of_marked {levels : List Nat} {first : Bool} {p : Place} {ms : List Marked}
    (h : markedLines levels first p = .ok ms) : CommentsEnd (ms.map Marked.token) := by
  fun_induction markedLines levels first p generalizing ms with
  | case1 levels first p hp =>
    obtain rfl := Except.ok.inj h
    rw [List.map_map, show Marked.token ∘ Marked.plain = id from rfl, List.map_id]
    refine commentsEnd_of_none fun t ht => ?_
    rcases mem_closing ht with hk | hk <;> simp [hk]
  | case2 levels first p hp hblank ih => exact ih h
  | case3 => simp at h
  | case4 => simp at h
  | case5 => simp at h
  | case6 levels first p hp hblank start hmix opening inner hopen content next hc =>
    rename_i ih
    obtain ⟨more, hmore, rfl⟩ := map_eq_ok_iff.1 h
    simp only [List.map_append, List.map_map]
    refine commentsEnd_append (fun t ht => ?_) ?_
    · obtain ⟨l, hl, rfl⟩ := List.mem_map.1 ht
      exact openLine_ne_comment hopen l hl
    rw [show Marked.token ∘ (⟨·, startsText start⟩) = id from rfl, List.map_id]
    rcases lineContent_cases hc with ⟨-, t, rfl, ht⟩ | ⟨-, ⟨t, rfl, ht⟩, hq⟩ | ⟨-, hchain⟩
    · exact commentsEnd_append (by simp [ht]) (ih hmore)
    · -- All lines that are indented more deeply belong to the comment.
      have hinner : inner.headD 0 = p.indent := by
        rcases openLine_cases hopen with ⟨-, -, rfl⟩ | ⟨hl, -, rfl⟩ | ⟨n, -, -, -, -, hl⟩
        · rfl
        · exact hl
        · exact hl
      have hafter := after_of_marked (b := .comment) hmore (by simp) (fun _ => hinner ▸ hq)
      exact ⟨fun _ => hafter.endsLine, ih hmore⟩
    · exact commentsEnd_append hchain.kind_ne_comment (ih hmore)

/-- In every text a line ends behind each comment. -/
theorem commentsEnd_of_scan {text : String} {tokens : List Token}
    (h : Token.scan text = .ok tokens) : CommentsEnd tokens := by
  rw [scan_eq_marked] at h
  obtain ⟨ms, hms, rfl⟩ := map_eq_ok_iff.1 h
  exact commentsEnd_of_marked hms

/-! ## Reading without comments -/

/-- At `c'` are the tokens at `c` that are no comments. -/
structure Stripped (c c' : Cursor) : Prop where
  rest : c'.rest = withoutComments c.rest
  ends : CommentsEnd c.rest

namespace Stripped

variable {c c' d : Cursor}

/-- At a comment the other cursor stays, at the end of the line. -/
theorem comment (h : Stripped c c') (hk : c.kind = .comment) :
    Stripped c.advance c' ∧ c'.kind ∈ [Kind.newline, .outdent, .eof] := by
  have hrest := Cursor.rest_advance (c := c) (by simp [hk])
  have hends := h.ends
  rw [hrest] at hends
  have hc' : c'.rest = withoutComments c.advance.rest := by
    rw [h.rest, hrest, withoutComments_comment hk]
  refine ⟨⟨hc', hends.2⟩, ?_⟩
  have hline := hends.1 hk
  cases hadv : c.advance.rest with
  | nil =>
    rw [hadv] at hc'
    simp [Cursor.kind_eq_nextKind hc', withoutComments, nextKind, Token.kind, Lexeme.kind]
  | cons t ts =>
    have ht := hline t (by rw [hadv]; rfl)
    rw [hadv, withoutComments_cons (by rcases ht with h | h | h <;> simp [h])] at hc'
    rw [Cursor.kind_of_rest hc']
    simpa using ht

/-- At any other token the two cursors move on together. -/
theorem advance (h : Stripped c c') (hk : c.kind ≠ .comment) :
    c'.current = c.current ∧ (c.kind ≠ .eof → Stripped c.advance c'.advance) := by
  cases hrest : c.rest with
  | nil =>
    have hc' : c'.rest = [] := by rw [h.rest, hrest]; rfl
    refine ⟨by rw [Cursor.current, Cursor.current, hrest, hc'], fun hne => absurd ?_ hne⟩
    rw [Cursor.kind, Cursor.current, hrest]
    rfl
  | cons t ts =>
    have ht : t.kind ≠ .comment := by rwa [Cursor.kind_of_rest hrest] at hk
    have hc' : c'.rest = t :: withoutComments ts := by
      rw [h.rest, hrest, withoutComments_cons ht]
    refine ⟨(Cursor.current_of_rest hc').trans (Cursor.current_of_rest hrest).symm, fun hne => ?_⟩
    rw [Cursor.kind_of_rest hrest] at hne
    have hadv := Cursor.rest_advance_of_rest hrest hne
    refine ⟨(Cursor.rest_advance_of_rest hc' hne).trans (by rw [hadv]), ?_⟩
    have hends := h.ends
    rw [hrest] at hends
    exact hadv ▸ hends.2

/-- At any token but a comment both cursors see the same kind. -/
theorem kind (h : Stripped c c') (hk : c.kind ≠ .comment) : c'.kind = c.kind :=
  congrArg Token.kind (h.advance hk).1

/-- Where no token of these kinds is next, none is without comments. -/
theorem kind_notMem (ks : List Kind) (h : Stripped c c') (hk : c.kind ∉ ks)
    (hks : ∀ k ∈ [Kind.newline, .outdent, .eof], k ∉ ks) : c'.kind ∉ ks := by
  by_cases hc : c.kind = .comment
  · exact hks _ (h.comment hc).2
  · rwa [h.kind hc]

/-- At any token but a comment both cursors move on. -/
theorem advance_of_lexeme {l : Lexeme} (h : Stripped c c') (hl : c.current.lexeme = l)
    (hk : l.kind ∉ [Kind.comment, .eof]) :
    c'.current = c.current ∧ Stripped c.advance c'.advance := by
  have hkind : c.kind = l.kind := by rw [Cursor.kind, Token.kind, hl]
  rw [List.mem_cons, List.mem_singleton, not_or, ← hkind] at hk
  obtain ⟨hcur, hadv⟩ := h.advance hk.1
  exact ⟨hcur, hadv hk.2⟩

/-- Tokens without a comment are passed on both sides. -/
theorem passes {ps : List Token} (h : Stripped c c') (hc : c.rest = ps ++ d.rest)
    (hps : ∀ t ∈ ps, t.kind ≠ .comment) :
    ∃ ts, c'.rest = ps ++ ts ∧ ∀ d' : Cursor, d'.rest = ts → Stripped d d' := by
  refine ⟨withoutComments d.rest, ?_, fun d' hd' => ⟨hd', ?_⟩⟩
  · rw [h.rest, hc, withoutComments, List.filter_append,
      List.filter_eq_self.2 fun t ht => by simpa using hps t ht]
    rfl
  · have hends := hc ▸ h.ends
    clear hc
    induction ps with
    | nil => exact hends
    | cons t ps ih => exact ih (fun u hu => hps u (List.mem_cons_of_mem _ hu)) hends.2

/-- There are no comments in a head, so it is read alike. -/
theorem readHead {head : TagHead} (h : Stripped c c') (hc : c.kind.startsTag = true)
    (hh : readHead c = .ok (head, d)) :
    ∃ d', SlotMarkup.readHead c' = .ok (head, d') ∧ Stripped d d' := by
  obtain ⟨hs, hrest, hkinds⟩ := readHead_passes hh
  obtain ⟨ts, hts, hd⟩ := h.passes hrest fun t ht hk => by simpa [hk, headKinds] using hkinds t ht
  have hnext : nextKind ts ∉ partKinds :=
    (hd ⟨.nowhere, ts⟩ rfl).kind_notMem _ (readHead_end hh) (by decide)
  obtain ⟨d', hd', hrest'⟩ := readHead_repeats hc hh ⟨hs, hrest, hts⟩ hnext
  exact ⟨d', hd', hd d' hrest'⟩

/-- There are no comments in a text block, so it is read alike. -/
theorem textBlockItems {is : List Item} (h : Stripped c c')
    (hread : textBlockItems c = .ok (is, d)) :
    ∃ d', SlotMarkup.textBlockItems c' = .ok (is, d') ∧ Stripped d d' := by
  obtain ⟨bs, hrest, hkinds⟩ := textBlockItems_passes hread
  obtain ⟨ts, hts, hd⟩ := h.passes hrest fun t ht hk => by simpa [hk, blockKinds] using hkinds t ht
  obtain ⟨d', hd', hrest'⟩ := textBlockItems_repeats hread ⟨bs, hrest, hts⟩
  exact ⟨d', hd', hd d' hrest'⟩

end Stripped

/-- Items with `n` more texts. If there are none more, the same values are built of them. -/
structure Gains (n : Nat) (is js : List Item) : Prop where
  texts : valuesTextCount (itemsValues js) = valuesTextCount (itemsValues is) + n
  same : n = 0 → itemsValues js = itemsValues is

namespace Gains

variable {m n : Nat} {is js ks ls : List Item}

/-- Items have no more texts than they have. -/
theorem refl (is : List Item) : Gains 0 is is := ⟨rfl, fun _ => rfl⟩

/-- Texts that are gained in parts are gained in all. -/
theorem append (h : Gains m is js) (k : Gains n ks ls) : Gains (m + n) (is ++ ks) (js ++ ls) where
  texts := by
    rw [itemsValues_append, itemsValues_append, valuesTextCount_append, valuesTextCount_append,
      h.texts, k.texts]
    omega
  same hn := by rw [itemsValues_append, itemsValues_append, h.same (by omega), k.same (by omega)]

/-- A line of text that comes right behind another one has a line feed before it. -/
theorem text {a b : Bool} (hab : a = true → b = true) (value : String) (span : Span) :
    Gains (if b && !a then 1 else 0) (textItems a value span) (textItems b value span) := by
  cases a with
  | true =>
    rw [hab rfl]
    exact refl _
  | false =>
    cases b with
    | false => exact refl _
    | true =>
      refine ⟨?_, by simp⟩
      rw [textItems, itemsValues_append, valuesTextCount_append, Nat.add_comm]
      rfl

/-- A comment stands for nothing. -/
theorem comment (h : Gains n is js) (c : Comment) : Gains n (.comment c :: is) js :=
  ⟨h.texts, h.same⟩

/-- What is gained in a block is gained around it. -/
theorem block (h : Gains n is js) (span span' : Span) :
    Gains n [.block ⟨is, span⟩] [.block ⟨js, span'⟩] := by
  have hblock (ks : List Item) (s : Span) : itemsValues [.block ⟨ks, s⟩] = itemsValues ks := by
    rw [itemsValues, itemsValues, itemValues, blockValues, List.append_nil]
  exact ⟨by rw [hblock, hblock, h.texts], fun hn => by rw [hblock, hblock, h.same hn]⟩

/-- What is gained in a tag is gained around it. -/
theorem tag (h : Gains n is js) (head : TagHead) (start start' : Span) (c c' : Cursor) :
    Gains n [.tag (Tag.close head is start c)] [.tag (Tag.close head js start' c')] where
  texts := by
    simp only [itemsValues, itemValues, Tag.close, tagValue, bodyValues, blockValues,
      Block.ofItems, valuesTextCount, List.singleton_append, Node.make, Value.textCount,
      childrenTextCount_content, h.texts]
    omega
  same hn := by
    simp only [itemsValues, itemValues, Tag.close, tagValue, bodyValues, blockValues,
      Block.ofItems, h.same hn]

end Gains

/-- The same goal, where the item before may be a line of text now. -/
inductive Goal.Joins : Goal → Goal → Prop
  | items {stop a b} (h : a = true → b = true) : Joins (.items stop a) (.items stop b)
  | same (g : Goal) : Joins g g

/-- Only a goal for items is joined to one. -/
theorem Goal.Joins.of_items {stop : Kind} {a : Bool} {g : Goal} (h : Joins (.items stop a) g) :
    ∃ b, (a = true → b = true) ∧ g = .items stop b := by
  cases h with
  | items h => exact ⟨_, h, rfl⟩
  | same => exact ⟨a, id, rfl⟩

/-- What is read is read without comments, with some more line feeds. -/
theorem Stripped.reads {g g' : Goal} {c d c' : Cursor} {is : List Item} (h : Reads g c is d)
    (hc : Stripped c c') (hg : g.Joins g') :
    ∃ js d' n, Reads g' c' js d' ∧ Stripped d d' ∧ Gains n is js := by
  induction h generalizing c' g' with
  | @stop c stop a h hs =>
    obtain ⟨b, -, rfl⟩ := hg.of_items
    have hk : c.kind ≠ .comment := fun hk => by
      rcases h with h | h <;> simp [Cursor.kind, Token.kind, h, Lexeme.kind] at hk
    exact ⟨[], c', 0, .stop (by rwa [(hc.advance hk).1]) ((hc.kind hk).trans hs), hc, .refl _⟩
  | newline hl _ ih =>
    obtain ⟨b, hab, rfl⟩ := hg.of_items
    obtain ⟨hcur, hadv⟩ := hc.advance_of_lexeme hl (by decide)
    obtain ⟨js, d', n, hd', hst, hjs⟩ := ih hadv (.items hab)
    exact ⟨js, d', n, .newline (hcur ▸ hl) hd', hst, hjs⟩
  | @text c stop a value is d hl _ ih =>
    obtain ⟨b, hab, rfl⟩ := hg.of_items
    obtain ⟨hcur, hadv⟩ := hc.advance_of_lexeme hl (by simp [Lexeme.kind])
    obtain ⟨js, d', n, hd', hst, hjs⟩ := ih hadv (.same _)
    refine ⟨_, d', (if b && !a then 1 else 0) + n, .text (hcur ▸ hl) hd', hst, ?_⟩
    rw [hcur]
    exact (Gains.text hab value c.current.span).append hjs
  | @comment c stop a value buffered is d hl _ ih =>
    -- The comment is passed on one side alone, and no line of text is right before it there.
    obtain ⟨b, -, rfl⟩ := hg.of_items
    have hk : c.kind = .comment := by rw [Cursor.kind, Token.kind, hl, Lexeme.kind]
    obtain ⟨js, d', n, hd', hst, hjs⟩ := ih (hc.comment hk).1
      (.items (a := false) (b := b) (absurd · Bool.false_ne_true))
    exact ⟨js, d', n, hd', hst, hjs.comment _⟩
  | @child c stop a is d js e hs _ _ ih ih' =>
    obtain ⟨b, -, rfl⟩ := hg.of_items
    obtain ⟨is', d', m, hd', hst, his⟩ := ih hc (.same _)
    obtain ⟨js', e', n, he', hst', hjs⟩ := ih' hst (.same _)
    exact ⟨_, e', _, .child (Goal.startsTag_of_read_tag hd'.read) hd' he', hst', his.append hjs⟩
  | @tag c head b is d js e hs hh _ _ ih ih' =>
    cases hg
    have hk : c.kind ≠ .comment := by rintro hk; simp [hk, Kind.startsTag] at hs
    obtain ⟨b', hb', hst⟩ := hc.readHead hs hh
    obtain ⟨is', d', m, hd', hst', his⟩ := ih hst (.same _)
    obtain ⟨js', e', n, he', hst'', hjs⟩ := ih' hst' (.same _)
    exact ⟨_, e', _, .tag (hc.kind hk ▸ hs) hb' hd' he', hst'', .tag (his.append hjs) _ _ _ _ _⟩
  | colon hl _ _ ih =>
    cases hg
    obtain ⟨hcur, hadv⟩ := hc.advance_of_lexeme hl (by decide)
    obtain ⟨js, d', n, hd', hst, hjs⟩ := ih hadv (.same _)
    exact ⟨js, d', n, .colon (hcur ▸ hl) (Goal.startsTag_of_read_tag hd'.read) hd', hst, hjs⟩
  | block hl lines =>
    cases hg
    obtain ⟨hcur, hadv⟩ := hc.advance_of_lexeme hl (by decide)
    obtain ⟨d', hd', hst⟩ := hadv.textBlockItems lines
    exact ⟨_, d', 0, .block (hcur ▸ hl) hd', hst, .refl _⟩
  | inlineText hl =>
    cases hg
    obtain ⟨hcur, hadv⟩ := hc.advance_of_lexeme hl (by simp [Lexeme.kind])
    exact ⟨_, _, 0, .inlineText (hcur ▸ hl), hadv, hcur ▸ .refl _⟩
  | noInline hk =>
    cases hg
    have hnot := hc.kind_notMem [.colon, .openTextBlock, .text] (fun h => hk _ h rfl)
      (by decide)
    exact ⟨[], c', 0, .noInline fun k hmem h => hnot (h ▸ hmem), hc, .refl _⟩
  | @nested c is d hi _ hd ih =>
    cases hg
    obtain ⟨hcur, hadv⟩ := hc.advance (by simp [hi])
    obtain ⟨js, d', n, hd', hst, hjs⟩ := ih (hadv (by simp [hi])) (.same _)
    obtain ⟨hcur', hadv'⟩ := hst.advance (by simp [hd])
    exact ⟨_, _, n, .nested ((congrArg Token.kind hcur).trans hi) hd'
      ((congrArg Token.kind hcur').trans hd), hadv' (by simp [hd]), hjs.block _ _⟩
  | noNested hi =>
    cases hg
    have hnot := hc.kind_notMem [.indent] (by simpa using hi) (by decide)
    exact ⟨[], c', 0, .noNested (by simpa using hnot), hc, .refl _⟩

/-! ## Parted lines -/

/-- How many of the lines of text come right behind another one only if the comments before
    them are left out. -/
def partedLines (past : List Kind) : List Token → Nat
  | [] => 0
  | t :: ts =>
    (if t.kind == .text && ownLine past && !behindLine past &&
      behindLine (past.filter (· != .comment)) then 1 else 0) + partedLines (t.kind :: past) ts

/-- What is before in two lists of tokens, of which one has comments in it. -/
structure PastStripped (past past' : List Kind) : Prop where
  block : inTextBlock past' = inTextBlock past
  line : behindLine past = true → behindLine past' = true
  head : past.head? ≠ some .comment → behindHead past' = behindHead past

namespace PastStripped

variable {past past' : List Kind}

/-- Where no comment is directly before, a line is one of its own in both lists or in none. -/
theorem ownLine (h : PastStripped past past') (hp : past.head? ≠ some .comment) :
    ownLine past' = SlotMarkup.ownLine past := by
  rw [SlotMarkup.ownLine, SlotMarkup.ownLine, h.block, h.head hp]

/-- A comment is passed in one of the lists alone. -/
theorem comment (h : PastStripped past past') : PastStripped (.comment :: past) past' where
  block := h.block.trans (inTextBlock_cons (by decide) (by decide)).symm
  line hl := by rw [behindLine_of_head (by decide) (by decide)] at hl; simp at hl
  head hp := absurd rfl hp

/-- A token that is no text behind a comment leaves the lists as alike as they were. -/
theorem cons (h : PastStripped past past') {k : Kind}
    (hk : k = .text → past.head? ≠ some .comment) : PastStripped (k :: past) (k :: past') where
  block := by
    by_cases ho : k = .openTextBlock ∨ k = .closeTextBlock
    · rcases ho with rfl | rfl <;> rfl
    · rw [not_or] at ho
      rw [inTextBlock_cons ho.1 ho.2, inTextBlock_cons ho.1 ho.2, h.block]
  line hl := by
    by_cases hn : k = .newline
    · subst hn
      exact h.line hl
    · by_cases ht : k = .text
      · subst ht
        have hown : SlotMarkup.ownLine past = true := hl
        have hown' := h.ownLine (hk rfl)
        exact hown'.trans hown
      · rw [behindLine_of_head hn ht] at hl
        simp at hl
  head _ := rfl

end PastStripped

/-- Only texts and line breaks are entries of a text. -/
theorem textEntries_token {past : List Kind} {t : Token} (ht : t.kind ≠ .text)
    (hn : t.kind ≠ .newline) : textEntries (t.entries past) = 0 := by
  cases hl : t.lexeme with
  | text => exact absurd (by rw [Token.kind, hl]; rfl) ht
  | newline => exact absurd (by rw [Token.kind, hl]; rfl) hn
  | idShorthand | classShorthand =>
    simp only [Token.entries, hl]
    cases behindHead past <;> rfl
  | _ =>
    simp only [Token.entries, hl]
    rfl

/-- What a token gains that is no comment. -/
theorem textEntries_stripped {past past' : List Kind} {t : Token} (hp : PastStripped past past')
    (hhead : t.kind = .text → past.head? ≠ some .comment) :
    textEntries (t.entries past') = textEntries (t.entries past) +
      if t.kind == .text && ownLine past && !behindLine past && behindLine past' then 1 else 0 := by
  by_cases ht : t.kind = .text
  · obtain ⟨value, hl⟩ := Lexeme.eq_text ht
    have hown := hp.ownLine (hhead ht)
    simp only [Token.entries, hl, hown, ht]
    cases ownLine past with
    | false => rfl
    | true =>
      simp only [if_true, textEntries_append]
      cases hline : behindLine past with
      | false => cases behindLine past' <;> simp [textEntries, Entry.isText, Nat.add_comm]
      | true => simp [hp.line hline]
  · have hno : (t.kind == .text) = false := by simpa using ht
    rw [hno]
    by_cases hn : t.kind = .newline
    · have hl : t.lexeme = .newline := Lexeme.eq_of_kind (m := .newline) hn rfl
      simp only [Token.entries, hl, hp.block]
      rfl
    · rw [textEntries_token ht hn, textEntries_token ht hn]
      rfl

/-- The texts that are gained without comments are line feeds between parted lines. -/
theorem textEntries_withoutComments {past : List Kind} {ts : List Token}
    (hp : PastStripped past (past.filter (· != .comment)))
    (hhead : past.head? = some .comment → EndsLine ts) (h : CommentsEnd ts) :
    textEntries (entriesFrom (past.filter (· != .comment)) (withoutComments ts)) =
      textEntries (entriesFrom past ts) + partedLines past ts := by
  induction ts generalizing past with
  | nil => rfl
  | cons t ts ih =>
    obtain ⟨hends, hts⟩ := h
    by_cases hk : t.kind = .comment
    · have hfilter : (t.kind :: past).filter (· != .comment) = past.filter (· != .comment) :=
        List.filter_cons_of_neg (by simp [hk])
      have hp' : PastStripped (t.kind :: past) ((t.kind :: past).filter (· != .comment)) := by
        rw [hfilter, hk]
        exact hp.comment
      have hmore := ih hp' (fun _ => hends hk) hts
      rw [hfilter] at hmore
      rw [withoutComments_comment hk, entriesFrom, partedLines, textEntries_append,
        textEntries_token (by simp [hk]) (by simp [hk])]
      simpa [hk] using hmore
    · have hfilter : (t.kind :: past).filter (· != .comment) =
          t.kind :: past.filter (· != .comment) := List.filter_cons_of_pos (by simpa using hk)
      -- Behind a comment is no text.
      have htext : t.kind = .text → past.head? ≠ some .comment := fun ht hpast => by
        rcases hhead hpast t rfl with h | h | h <;> simp [h] at ht
      have hp' : PastStripped (t.kind :: past) ((t.kind :: past).filter (· != .comment)) := by
        rw [hfilter]
        exact hp.cons htext
      have hmore := ih hp' (fun hc => absurd (Option.some.inj hc) hk) hts
      rw [hfilter] at hmore
      rw [withoutComments_cons hk, entriesFrom, entriesFrom, partedLines, textEntries_append,
        textEntries_append, textEntries_stripped hp htext, hmore]
      omega

/-! ## Trees -/

/-- Comments can be taken out before the tail is cut off or after. -/
theorem beforeEof_withoutComments (ts : List Token) :
    beforeEof (withoutComments ts) = withoutComments (beforeEof ts) := by
  induction ts with
  | nil => rfl
  | cons t ts ih =>
    by_cases hk : t.kind = .comment
    · rw [withoutComments_comment hk, beforeEof, beforeEof,
        List.takeWhile_cons_of_pos (by simp [hk]), withoutComments_comment hk]
      exact ih
    · rw [withoutComments_cons hk, beforeEof, beforeEof, List.takeWhile_cons, List.takeWhile_cons]
      split
      · rw [withoutComments_cons hk]
        exact congrArg (t :: ·) ih
      · rfl

theorem commentsEnd_beforeEof {ts : List Token} (h : CommentsEnd ts) :
    CommentsEnd (beforeEof ts) := by
  induction ts with
  | nil => exact h
  | cons t ts ih =>
    rw [beforeEof, List.takeWhile_cons]
    split
    · refine ⟨fun hk u hu => h.1 hk u ?_, ih h.2⟩
      cases ts with
      | nil => simp at hu
      | cons v ts =>
        rw [List.takeWhile_cons] at hu
        split at hu
        · exact hu
        · simp at hu
    · trivial

/-- The texts of a tree are told by the tokens it is read from. -/
theorem Reads.textCount {tokens : List Token} {is : List Item} {d : Cursor}
    (h : Reads (.items .eof false) (.ofTokens tokens) is d) :
    valuesTextCount (itemsValues is) = textEntries (entriesFrom [] (beforeEof tokens)) := by
  obtain ⟨past, hc, -⟩ := h.entries [] ⟨rfl, rfl, (absurd · Bool.false_ne_true)⟩
  rw [Cursor.entries_of_eof h.kind_stop, List.append_nil] at hc
  rw [textCount_items, ← hc]
  rfl

/-- Without the comments among its tokens every template is still accepted. The tree has one
    more text for each two lines of text that only comments have parted, and it is the same
    tree if there are none. -/
theorem Block.toValue_withoutComments {text : String} {tokens : List Token} {block : Block}
    (hscan : Token.scan text = .ok tokens) (h : Block.parse text = .ok block) :
    ∃ block', Block.ofTokens (withoutComments tokens) = .ok block' ∧
      block'.toValue.textCount =
        block.toValue.textCount + partedLines [] (beforeEof tokens) ∧
      (block'.toValue = block.toValue ↔ partedLines [] (beforeEof tokens) = 0) := by
  have hends := commentsEnd_of_scan hscan
  rw [Block.parse, hscan] at h
  simp only [Block.ofTokens_eq] at h
  obtain ⟨⟨is, d⟩, hread, rfl⟩ := map_eq_ok_iff.1 h
  have hreads := Reads.of_read hread
  have hstart : Stripped (.ofTokens tokens) (.ofTokens (withoutComments tokens)) := ⟨rfl, hends⟩
  obtain ⟨js, d', n, hd', -, htexts, hsame⟩ := hstart.reads hreads (.same _)
  have hn : n = partedLines [] (beforeEof tokens) := by
    have hnil : PastStripped [] [] := ⟨rfl, id, fun _ => rfl⟩
    have hgain := textEntries_withoutComments hnil (fun hp => by simp at hp)
      (commentsEnd_beforeEof hends)
    rw [List.filter_nil, ← beforeEof_withoutComments, ← hd'.textCount, ← hreads.textCount] at hgain
    omega
  have hcount : (Block.ofItems js d'.current.span).toValue.textCount =
      (Block.ofItems is d.current.span).toValue.textCount + n := by
    simp only [textCount_toValue, Block.ofItems, blockValues, htexts]
  refine ⟨Block.ofItems js d'.current.span, ?_, hn ▸ hcount, ?_⟩
  · rw [Block.ofTokens_eq]
    exact map_eq_ok_iff.2 ⟨(js, d'), hd'.read, rfl⟩
  · rw [← hn]
    refine ⟨fun heq => ?_, fun h0 => ?_⟩
    · have htexts' := congrArg Value.textCount heq
      dsimp only at htexts'
      omega
    · simp only [Block.toValue, Block.ofItems, blockValues, hsame h0]

/-- A comment between two lines of text, one between a tag and a line of text, and one below a
    tag. -/
theorem Block.toValue_withoutComments_lines :
    ∃ tokens block block', Token.scan "| a\n// c\n| b\np\n  // d\n    x\n// e\n| f" = .ok tokens ∧
      Block.parse "| a\n// c\n| b\np\n  // d\n    x\n// e\n| f" = .ok block ∧
      Block.ofTokens (withoutComments tokens) = .ok block' ∧
      block'.toValue.textCount = block.toValue.textCount + 1 ∧ block'.toValue ≠ block.toValue := by
  have hcount : (Token.scan "| a\n// c\n| b\np\n  // d\n    x\n// e\n| f").toOption.map
      (fun tokens => partedLines [] (beforeEof tokens)) = some 1 := by decide +kernel
  have hparse : (Block.parse
      "| a\n// c\n| b\np\n  // d\n    x\n// e\n| f").toOption.isSome = true := by decide +kernel
  obtain ⟨tokens, hscan, hone⟩ := Option.map_eq_some_iff.1 hcount
  obtain ⟨block, hblock⟩ := Option.isSome_iff_exists.1 hparse
  obtain ⟨block', hblock', htexts, hiff⟩ :=
    Block.toValue_withoutComments (ok_of_toOption hscan) (ok_of_toOption hblock)
  exact ⟨tokens, block, block', ok_of_toOption hscan, ok_of_toOption hblock, hblock', hone ▸ htexts,
    fun heq => by simp [hiff.1 heq] at hone⟩

/-- A comment shows in what is rendered: without it the lines around it are joined. -/
theorem Block.toValue_parted :
    ∃ tokens block block', Token.scan "| a\n// c\n| b" = .ok tokens ∧
      Block.parse "| a\n// c\n| b" = .ok block ∧
      Block.ofTokens (withoutComments tokens) = .ok block' ∧ block'.toValue ≠ block.toValue := by
  have htwo : (Block.parse "| a\n// c\n| b").toOption.map (·.toValue.textCount) = some 2 := by
    decide +kernel
  have hthree : (Token.scan "| a\n// c\n| b").toOption.bind (fun tokens =>
      (Block.ofTokens (withoutComments tokens)).toOption.map (·.toValue.textCount)) = some 3 := by
    decide +kernel
  obtain ⟨block, hblock, htexts⟩ := Option.map_eq_some_iff.1 htwo
  obtain ⟨tokens, hscan, hmap⟩ := Option.bind_eq_some_iff.1 hthree
  obtain ⟨block', hblock', htexts'⟩ := Option.map_eq_some_iff.1 hmap
  refine ⟨tokens, block, block', ok_of_toOption hscan, ok_of_toOption hblock,
    ok_of_toOption hblock', fun heq => ?_⟩
  rw [heq, htexts] at htexts'
  simp at htexts'

end SlotMarkup
