import SlotMarkup.Proofs.ParseOutcome
import SlotMarkup.Proofs.ScanMeasure
import SlotMarkup.Proofs.SlotWords

/-!
# Parsing loses no words

The strings of a list of tokens, those of comments apart, all come to stand in the
items that the parser reads (`Reads.measure`). The words that it adds, such as the
name of a tag without one, are shorter than any that is counted (`TokenMeasure`).

What is true of the heads that can be read from the tokens is true of the heads of
all tags (`Reads.heads`).
-/

namespace SlotMarkup

/-! ## Strings of items -/

/-- The strings of an attribute. -/
def Attribute.contents (a : Attribute) : List String := a.name :: a.value.texts

/-- The strings of the head of a tag. -/
def TagHead.contents (h : TagHead) : List String := h.name :: h.attrs.flatMap Attribute.contents

mutual

/-- The heads of the tags of an item. -/
def itemHeads : Item → List TagHead
  | .block b => blockHeads b
  | .tag t => tagHeads t
  | .text _ => []
  | .comment _ => []

/-- The heads of the tags of some items. -/
def itemsHeads : List Item → List TagHead
  | [] => []
  | i :: is => itemHeads i ++ itemsHeads is

/-- The heads of the tags of a block. -/
def blockHeads : BlockOf Item → List TagHead
  | ⟨nodes, _⟩ => itemsHeads nodes

/-- The heads of the tags of a body. -/
def bodyHeads : Option (BlockOf Item) → List TagHead
  | none => []
  | some b => blockHeads b

/-- The head of a tag and those of the tags in it. -/
def tagHeads : TagOf Item → List TagHead
  | ⟨name, attrs, body, _⟩ => ⟨name, attrs⟩ :: bodyHeads body

end

mutual

/-- The texts of an item, comments left out. -/
def itemTexts : Item → List String
  | .block b => blockTexts b
  | .tag t => tagTexts t
  | .text t => [t.value]
  | .comment _ => []

/-- The texts of some items. -/
def itemsTexts : List Item → List String
  | [] => []
  | i :: is => itemTexts i ++ itemsTexts is

/-- The texts of a block. -/
def blockTexts : BlockOf Item → List String
  | ⟨nodes, _⟩ => itemsTexts nodes

/-- The texts of a body. -/
def bodyTexts : Option (BlockOf Item) → List String
  | none => []
  | some b => blockTexts b

/-- The texts in a tag. -/
def tagTexts : TagOf Item → List String
  | ⟨_, _, body, _⟩ => bodyTexts body

end

/-- The strings of heads and texts together. -/
def headsContents (heads : List TagHead) (texts : List String) : List String :=
  heads.flatMap TagHead.contents ++ texts

/-- The strings of some items, comments left out. -/
def itemsContents (is : List Item) : List String := headsContents (itemsHeads is) (itemsTexts is)

@[simp] theorem itemsHeads_append (is js : List Item) :
    itemsHeads (is ++ js) = itemsHeads is ++ itemsHeads js := by
  induction is with
  | nil => rfl
  | cons i is ih => rw [List.cons_append, itemsHeads, itemsHeads, ih, List.append_assoc]

@[simp] theorem itemsTexts_append (is js : List Item) :
    itemsTexts (is ++ js) = itemsTexts is ++ itemsTexts js := by
  induction is with
  | nil => rfl
  | cons i is ih => rw [List.cons_append, itemsTexts, itemsTexts, ih, List.append_assoc]

/-! ## Measures -/

/-- A measure that counts nothing in words shorter than a token. -/
structure TokenMeasure (μ : List Char → Nat) : Prop extends WordMeasure μ where
  short : ∀ {cs : List Char}, cs.length < Slots.mark.length → μ cs = 0

/-- How often the token of a slot is used is a measure of words. -/
theorem Slots.tokenMeasure_uses (s : Slots) (index : Nat) : TokenMeasure (s.uses index) where
  toWordMeasure := wordMeasure_uses s index
  short h := uses_of_length_lt h index

theorem itemHeads_close (head : TagHead) (content : List Item) (start : Span) (c : Cursor) :
    itemHeads (.tag (Tag.close head content start c)) = head :: itemsHeads content := rfl

theorem itemTexts_close (head : TagHead) (content : List Item) (start : Span) (c : Cursor) :
    itemTexts (.tag (Tag.close head content start c)) = itemsTexts content := rfl

@[simp] theorem headsContents_nil (texts : List String) : headsContents [] texts = texts := rfl

@[simp] theorem itemsContents_nil : itemsContents [] = [] := rfl

/-- Items one after the other weigh as much as they do apart. -/
theorem weigh_itemsContents_append (μ : List Char → Nat) (is js : List Item) :
    weigh μ (itemsContents (is ++ js)) =
      weigh μ (itemsContents is) + weigh μ (itemsContents js) := by
  simp only [itemsContents, headsContents, itemsHeads_append, itemsTexts_append,
    List.flatMap_append, weigh_append]
  omega

theorem weigh_itemsContents_cons (μ : List Char → Nat) (i : Item) (is : List Item) :
    weigh μ (itemsContents (i :: is)) =
      weigh μ (headsContents (itemHeads i) (itemTexts i)) + weigh μ (itemsContents is) := by
  simp only [itemsContents, headsContents, itemsHeads, itemsTexts, List.flatMap_append,
    weigh_append]
  omega

theorem weigh_itemsContents_single (μ : List Char → Nat) (i : Item) :
    weigh μ (itemsContents [i]) = weigh μ (headsContents (itemHeads i) (itemTexts i)) := by
  rw [weigh_itemsContents_cons, itemsContents_nil, weigh_nil, Nat.add_zero]

/-- The measure of the tokens from a cursor on, comments left out. -/
def Cursor.measure (μ : List Char → Nat) (c : Cursor) : Nat := weigh μ (Token.contents c.rest)

/-- What a cursor passes. -/
theorem Cursor.measure_eq {μ : List Char → Nat} {c : Cursor} {l : Lexeme}
    (h : c.current.lexeme = l) (hl : l.kind ≠ .eof) :
    c.measure μ = weigh μ l.contents + c.advance.measure μ := by
  rw [measure, rest_advance (kind_ne_eof h hl), Token.contents, List.flatMap_cons, h, weigh_append]
  rfl

/-- A token without strings can be passed without loss. -/
theorem Cursor.measure_expect {μ : List Char → Nat} {c d : Cursor} {l : Lexeme}
    (h : c.expect l.kind = .ok d) (hl : l.kind.isPlain = true) (hne : l.kind ≠ .eof)
    (hcontents : l.contents = []) : c.measure μ = d.measure μ := by
  rw [expect] at h
  split at h
  · rename_i hk
    obtain rfl := Except.ok.inj h
    rw [measure_eq (Lexeme.eq_of_kind hk hl) hne, hcontents, weigh_nil, Nat.zero_add]
  · simp at h

/-- The attributes of a list have the strings of their tokens. -/
theorem listedAttributes_measure (μ : List Char → Nat) (c : Cursor) :
    c.measure μ = weigh μ ((listedAttributes c).1.flatMap Attribute.contents) +
      (listedAttributes c).2.measure μ := by
  fun_induction listedAttributes c with
  | case1 c name value hl attrs d h ih =>
    rw [h] at ih
    rw [Cursor.measure_eq hl (by simp [Lexeme.kind]), ih, List.flatMap_cons, weigh_append,
      Attribute.contents, Lexeme.contents, Nat.add_assoc]
  | case2 c => simp

section Reads

variable {μ : List Char → Nat} (hμ : TokenMeasure μ)

include hμ

/-- The quotes around a shorthand are in no word. -/
theorem quoted_measure (s : String) : weigh μ (quoted s).texts = μ s.toList := by
  have h : ("'" ++ s ++ "'").toList = '\'' :: (s.toList ++ ['\'']) := by
    simp [String.toList_append]
  rw [quoted, AttrValue.texts, weigh_cons, weigh_nil, h, hμ.cons rfl,
    hμ.append (wordBreak_cons_right rfl), hμ.single rfl]
  rfl

/-- A shorthand is an attribute with a short name. -/
theorem shorthand_measure {name : String} (hname : name.toList.length < Slots.mark.length)
    (s : String) (span : Span) :
    weigh μ (Attribute.contents ⟨name, quoted s, span⟩) = μ s.toList := by
  rw [Attribute.contents, weigh_cons, quoted_measure hμ, hμ.short hname, Nat.zero_add]

/-- Shorthands and lists have the strings of their tokens. -/
theorem attributeRun_measure {c d : Cursor} {attrs : List Attribute}
    (h : attributeRun c = .ok (attrs, d)) :
    c.measure μ = weigh μ (attrs.flatMap Attribute.contents) + d.measure μ := by
  fun_induction attributeRun c generalizing attrs with
  | case1 c x hl ih =>
    obtain ⟨as, he, rfl⟩ := map_fst_eq_ok_iff.1 h
    rw [Cursor.measure_eq hl (by simp [Lexeme.kind]), ih he, List.flatMap_cons, weigh_append,
      shorthand_measure hμ (by decide), Lexeme.contents, weigh_cons, weigh_nil]
    omega
  | case2 c x hl ih =>
    obtain ⟨as, he, rfl⟩ := map_fst_eq_ok_iff.1 h
    rw [Cursor.measure_eq hl (by simp [Lexeme.kind]), ih he, List.flatMap_cons, weigh_append,
      shorthand_measure hμ (by decide), Lexeme.contents, weigh_cons, weigh_nil]
    omega
  | case3 => simp at h
  | case4 c hl e he ih =>
    obtain ⟨as, hf, rfl⟩ := map_fst_eq_ok_iff.1 h
    rw [Cursor.measure_eq hl (by simp [Lexeme.kind]), listedAttributes_measure,
      Cursor.measure_expect (l := .closeAttributes) he rfl (by decide) rfl, ih hf,
      List.flatMap_append, weigh_append]
    simp only [Lexeme.contents, weigh_nil]
    omega
  | case5 =>
    obtain ⟨rfl, rfl⟩ := Prod.mk.inj (Except.ok.inj h)
    simp

/-- A head has the strings of its tokens. -/
theorem readHead_measure {c d : Cursor} {head : TagHead} (h : readHead c = .ok (head, d)) :
    c.measure μ = weigh μ head.contents + d.measure μ := by
  rw [readHead] at h
  split at h
  · rename_i name hl
    obtain ⟨as, he, rfl⟩ := map_fst_eq_ok_iff.1 h
    rw [Cursor.measure_eq hl (by simp [Lexeme.kind]), attributeRun_measure hμ he]
    simp only [TagHead.contents, Lexeme.contents, weigh_cons, weigh_nil]
    omega
  · obtain ⟨as, he, rfl⟩ := map_fst_eq_ok_iff.1 h
    have hdefault : μ defaultTag.toList = 0 := hμ.short (by decide)
    rw [attributeRun_measure hμ he, TagHead.contents, weigh_cons, hdefault, Nat.zero_add]

/-- The texts of a text block have the strings of their tokens. -/
theorem textBlockItems_measure {c d : Cursor} {is : List Item}
    (h : textBlockItems c = .ok (is, d)) :
    c.measure μ = weigh μ (itemsContents is) + d.measure μ := by
  fun_induction textBlockItems c generalizing is with
  | case1 c value hl ih =>
    obtain ⟨js, he, rfl⟩ := map_fst_eq_ok_iff.1 h
    rw [Cursor.measure_eq hl (by simp [Lexeme.kind]), ih he, weigh_itemsContents_cons]
    simp only [Lexeme.contents, weigh_cons, weigh_nil, itemHeads, itemTexts, headsContents_nil]
    omega
  | case2 c hl ih =>
    obtain ⟨js, he, rfl⟩ := map_fst_eq_ok_iff.1 h
    rw [Cursor.measure_eq hl (by simp [Lexeme.kind]), ih he, weigh_itemsContents_cons]
    simp only [Lexeme.contents, weigh_cons, weigh_nil, itemHeads, itemTexts, headsContents_nil]
    rw [hμ.short (by decide)]
    omega
  | case3 c hl =>
    obtain ⟨rfl, rfl⟩ := Prod.mk.inj (Except.ok.inj h)
    rw [Cursor.measure_eq hl (by simp [Lexeme.kind])]
    rfl
  | case4 => simp at h

/-- The texts of a line stand for its value alone. -/
theorem textItems_measure (afterText : Bool) (value : String) (span : Span) :
    weigh μ (itemsContents (textItems afterText value span)) = μ value.toList := by
  have hbreak : μ "\n".toList = 0 := hμ.short (by decide)
  have hfirst : weigh μ (itemsContents
      (if afterText then [.text ⟨"\n", .point span.start⟩] else [])) = 0 := by
    split
    · rw [weigh_itemsContents_single, itemHeads, itemTexts, headsContents_nil, weigh_cons, hbreak,
        weigh_nil]
    · rfl
  rw [textItems, weigh_itemsContents_append, hfirst, Nat.zero_add]
  split
  · rename_i hempty
    rw [String.isEmpty_iff.1 hempty]
    exact hμ.nil.symm
  · rw [weigh_itemsContents_single, itemHeads, itemTexts, headsContents_nil, weigh_cons, weigh_nil,
      Nat.add_zero]

/-- Reading conserves the strings of the tokens. -/
theorem Reads.measure {g : Goal} {c d : Cursor} {is : List Item} (h : Reads g c is d) :
    c.measure μ = weigh μ (itemsContents is) + d.measure μ := by
  -- What a rule takes from the tokens, its items have.
  induction h with
  | stop => simp
  | newline h _ ih =>
    rw [Cursor.measure_eq h (by simp [Lexeme.kind]), ih]
    simp [Lexeme.contents]
  | text h _ ih =>
    rw [Cursor.measure_eq h (by simp [Lexeme.kind]), ih, weigh_itemsContents_append,
      textItems_measure hμ, Lexeme.contents, weigh_cons, weigh_nil]
    omega
  | comment h _ ih =>
    rw [Cursor.measure_eq h (by simp [Lexeme.kind]), ih, weigh_itemsContents_cons]
    simp [Lexeme.contents, itemHeads, itemTexts]
  | child h _ _ ih ih' => rw [ih, ih', weigh_itemsContents_append, Nat.add_assoc]
  | tag h hh _ _ ih ih' =>
    have hclose : ∀ (head : TagHead) (content : List Item) (start : Span) (e : Cursor),
        weigh μ (itemsContents [.tag (Tag.close head content start e)]) =
          weigh μ head.contents + weigh μ (itemsContents content) := by
      intro head content start e
      rw [weigh_itemsContents_single, itemHeads_close, itemTexts_close]
      simp only [headsContents, itemsContents, List.flatMap_cons, weigh_append, Nat.add_assoc]
    rw [readHead_measure hμ hh, ih, ih', hclose, weigh_itemsContents_append]
    omega
  | colon h _ _ ih =>
    rw [Cursor.measure_eq h (by simp [Lexeme.kind]), ih]
    simp [Lexeme.contents]
  | block h lines =>
    rw [Cursor.measure_eq h (by simp [Lexeme.kind]), textBlockItems_measure hμ lines]
    simp [Lexeme.contents]
  | inlineText h =>
    rw [Cursor.measure_eq h (by simp [Lexeme.kind]), weigh_itemsContents_cons]
    simp [Lexeme.contents, itemHeads, itemTexts]
  | noInline => simp
  | @nested c is d h _ hd ih =>
    have hindent : c.current.lexeme = .indent := Lexeme.eq_of_kind h rfl
    have houtdent : d.current.lexeme = .outdent := Lexeme.eq_of_kind hd rfl
    rw [Cursor.measure_eq hindent (by simp [Lexeme.kind]), ih,
      Cursor.measure_eq houtdent (by simp [Lexeme.kind]), weigh_itemsContents_single]
    simp [Lexeme.contents, itemHeads, itemTexts, nestedBlock, blockHeads, blockTexts, itemsContents]
  | noNested => simp

end Reads

/-! ## Names of tags -/

/-- There is no tag in a text block. -/
theorem textBlockItems_heads {c d : Cursor} {is : List Item}
    (h : textBlockItems c = .ok (is, d)) : itemsHeads is = [] := by
  fun_induction textBlockItems c generalizing is with
  | case1 c _ _ ih | case2 c _ ih =>
    obtain ⟨js, he, rfl⟩ := map_fst_eq_ok_iff.1 h
    rw [itemsHeads, itemHeads, ih he]
    rfl
  | case3 c => exact (Prod.mk.inj (Except.ok.inj h)).1 ▸ rfl
  | case4 => simp at h

/-- There is no tag in a line of text. -/
theorem textItems_heads (afterText : Bool) (value : String) (span : Span) :
    itemsHeads (textItems afterText value span) = [] := by
  rw [textItems]
  split <;> split <;> rfl

/-- What is true of every head that can be read from some tokens is true of all heads
    that are read. -/
theorem Reads.heads {P : TagHead → Prop} {g : Goal} {c d : Cursor} {is : List Item}
    (h : Reads g c is d)
    (hP : ∀ {b e : Cursor} {head : TagHead}, b.rest <:+ c.rest →
      readHead b = .ok (head, e) → P head) :
    ∀ head ∈ itemsHeads is, P head := by
  induction h with
  | stop | noInline | noNested | inlineText => simp [itemsHeads, itemHeads]
  | newline _ _ ih | comment _ _ ih | colon _ _ _ ih =>
    exact ih fun hb => hP (hb.trans (Cursor.advance_suffix _))
  | text _ _ ih =>
    rw [itemsHeads_append, textItems_heads, List.nil_append]
    exact ih fun hb => hP (hb.trans (Cursor.advance_suffix _))
  | child _ child _ ih ih' =>
    rw [itemsHeads_append]
    intro head hm
    rcases List.mem_append.1 hm with hm | hm
    · exact ih hP head hm
    · exact ih' (fun hb => hP (hb.trans child.suffix)) head hm
  | tag _ hh content _ ih ih' =>
    -- The head of the tag itself, those of its content, and those below it.
    have hsuffix := readHead_suffix hh
    intro head hm
    rw [itemsHeads, itemHeads_close, itemsHeads_append, itemsHeads, List.append_nil] at hm
    rcases List.mem_cons.1 hm with rfl | hm
    · exact hP List.suffix_rfl hh
    · rcases List.mem_append.1 hm with hm | hm
      · exact ih (fun hb => hP (hb.trans hsuffix)) head hm
      · exact ih' (fun hb => hP (hb.trans (content.suffix.trans hsuffix))) head hm
  | block _ lines => simp [textBlockItems_heads lines]
  | nested _ _ _ ih =>
    rw [itemsHeads, itemsHeads, List.append_nil]
    exact ih fun hb => hP (hb.trans (Cursor.advance_suffix _))

/-- The name of a tag is that of a token, or the one of a tag without a name. -/
theorem readHead_name {P : String → Prop} (hdefault : P defaultTag) {c d : Cursor} {head : TagHead}
    (hc : TagNames P c.rest) (h : readHead c = .ok (head, d)) : P head.name := by
  rw [readHead] at h
  split at h
  · rename_i name hl
    obtain ⟨as, -, rfl⟩ := map_fst_eq_ok_iff.1 h
    refine hc c.current ?_ name hl
    rw [c.rest_advance (Cursor.kind_ne_eof hl (by simp [Lexeme.kind]))]
    exact List.mem_cons_self
  · obtain ⟨as, -, rfl⟩ := map_fst_eq_ok_iff.1 h
    exact hdefault

/-- A name that starts with a word character. -/
def StartsWithWord (name : String) : Prop := ∃ c ∈ name.toList.head?, isWord c = true

/-- In a chain of tags every name starts with a word. -/
theorem IsChain.tagNames {ts : List Token} (h : IsChain ts) : TagNames StartsWithWord ts := by
  intro t ht name hl
  have hk : t.kind = .tag := by rw [Token.kind, hl]; rfl
  rcases h.mem t ht with (⟨other, ho, hw⟩ | hs | hs) | hm
  · obtain rfl := Lexeme.tag.inj (hl.symm.trans ho)
    exact hw
  · simp [hk] at hs
  · simp [hk] at hs
  · simp [hk, chainKinds] at hm

/-- All tags of a text are named so, unless the text is refused. -/
theorem Following.tagNames {d : Nat} {ts : List Token} (h : Following d ts none) :
    TagNames StartsWithWord ts := by
  have hcons : ∀ {t : Token} {ts : List Token}, t.kind ≠ .tag → TagNames StartsWithWord ts →
      TagNames StartsWithWord (t :: ts) := by
    intro t ts ht hts u hu name hl
    rcases List.mem_cons.1 hu with rfl | hu
    · exact absurd (by rw [Token.kind, hl]; rfl) ht
    · exact hts u hu name hl
  have happend : ∀ {cs ts : List Token}, IsChain cs → TagNames StartsWithWord ts →
      TagNames StartsWithWord (cs ++ ts) := by
    intro cs ts hcs hts u hu
    rcases List.mem_append.1 hu with hu | hu
    · exact hcs.tagNames u hu
    · exact hts u hu
  generalize hm : none = m at h
  induction h with
  | eof h => exact hcons (by simp [h]) (by simp [TagNames])
  | outdent h _ ih | newline h _ ih | comment h _ ih | text h _ ih =>
    exact hcons (by simp [h]) (ih hm)
  | stray => simp at hm
  | chain h _ _ ih => exact happend h (ih hm)
  | nested h hi _ ih => exact happend h (hcons (by simp [hi]) (ih hm))

end SlotMarkup
