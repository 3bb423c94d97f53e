import SlotMarkup.Proofs.ParseMeasure
import SlotMarkup.Proofs.ScanRewording

/-!
# Parsing reworded tokens

The parser decides by the kinds of tokens alone. From tokens in other words it
reads the same items, in other words and at other places (`Reads.reword`). Such
items have the same *outline*: their outline is what is left of items without
their spans.

The words that the parser adds, such as the name of a tag without one, have to
stay (`TokenRewording`).
-/

namespace SlotMarkup

/-! ## Outlines -/

/-- An attribute in other words, without its span. -/
def Attribute.outline (σ : List Char → List Char) (a : Attribute) : Attribute :=
  ⟨reword σ a.name, a.value.reword σ, .nowhere⟩

mutual

/-- An item in other words, without its spans. -/
def outlineItem (σ : List Char → List Char) : Item → Item
  | .block b => .block (outlineBlock σ b)
  | .tag t => .tag (outlineTag σ t)
  | .text t => .text ⟨reword σ t.value, .nowhere⟩
  | .comment c => .comment ⟨reword σ c.value, c.buffered, .nowhere⟩

/-- Some items in other words, without their spans. -/
def outline (σ : List Char → List Char) : List Item → List Item
  | [] => []
  | i :: is => outlineItem σ i :: outline σ is

/-- A block in other words, without its spans. -/
def outlineBlock (σ : List Char → List Char) : BlockOf Item → BlockOf Item
  | ⟨nodes, _⟩ => ⟨outline σ nodes, .nowhere⟩

/-- A body in other words, without its spans. -/
def outlineBody (σ : List Char → List Char) : Option (BlockOf Item) → Option (BlockOf Item)
  | none => none
  | some b => some (outlineBlock σ b)

/-- A tag in other words, without its spans. -/
def outlineTag (σ : List Char → List Char) : TagOf Item → TagOf Item
  | ⟨name, attrs, body, _⟩ =>
    ⟨reword σ name, attrs.map (Attribute.outline σ), outlineBody σ body, .nowhere⟩

end

/-- The items `js` are the items `is` in other words, wherever they were read. -/
def SameItems (σ : List Char → List Char) (is js : List Item) : Prop := outline id js = outline σ is

/-- The attributes `bs` are the attributes `as` in other words, wherever they were
    read. -/
def SameAttrs (σ : List Char → List Char) (as bs : List Attribute) : Prop :=
  bs.map (Attribute.outline id) = as.map (Attribute.outline σ)

/-- A rewording that leaves words shorter than a token. -/
structure TokenRewording (σ : List Char → List Char) : Prop extends Rewording σ where
  short : ∀ {cs : List Char}, cs.length < Slots.mark.length → σ cs = cs

section Outlines

variable {σ : List Char → List Char}

theorem SameAttrs.cons {a b : Attribute} {as bs : List Attribute}
    (h : b.outline id = a.outline σ) (h' : SameAttrs σ as bs) :
    SameAttrs σ (a :: as) (b :: bs) := by
  rw [SameAttrs, List.map_cons, List.map_cons, h, h']

/-- Leaving every text as it is rewords nothing. -/
@[simp] theorem reword_id (s : String) : reword id s = s := String.ofList_toList

@[simp] theorem AttrValue.reword_id (v : AttrValue) : v.reword id = v := by
  cases v <;> simp [AttrValue.reword]

@[simp] theorem Lexeme.reword_id (l : Lexeme) : l.reword id = l := by
  cases l <;> simp [Lexeme.reword]

/-- The same tokens, wherever they were read. -/
theorem rewords_id {ts us : List Token} :
    Rewords id ts us ↔ us.map Token.lexeme = ts.map Token.lexeme := by
  simp [Rewords]

@[simp] theorem outline_append (is js : List Item) :
    outline σ (is ++ js) = outline σ is ++ outline σ js := by
  induction is with
  | nil => rfl
  | cons i is ih => rw [List.cons_append, outline, outline, ih, List.cons_append]

/-- Items that are alike part by part are alike. -/
theorem SameItems.append {is js is' js' : List Item} (h : SameItems σ is is')
    (h' : SameItems σ js js') : SameItems σ (is ++ js) (is' ++ js') := by
  rw [SameItems, outline_append, outline_append, h, h']

theorem SameItems.cons {i i' : Item} {is is' : List Item} (h : outlineItem id i' = outlineItem σ i)
    (h' : SameItems σ is is') : SameItems σ (i :: is) (i' :: is') := by
  rw [SameItems, outline, outline, h, h']

theorem sameItems_nil : SameItems σ [] [] := rfl

/-- Blocks of items that are alike are alike, wherever they stand. -/
theorem SameItems.block {is is' : List Item} (h : SameItems σ is is') (s s' : Span) :
    SameItems σ [.block (nestedBlock s is)] [.block (nestedBlock s' is')] :=
  .cons (congrArg (fun ks => Item.block ⟨ks, .nowhere⟩) h) sameItems_nil

/-- Tags with heads and items that are alike are alike, wherever they stand. -/
theorem SameItems.close {head head' : TagHead} {is is' : List Item}
    (hname : head'.name = reword σ head.name) (hattrs : SameAttrs σ head.attrs head'.attrs)
    (h : SameItems σ is is') (s s' : Span) (c c' : Cursor) :
    SameItems σ [.tag (Tag.close head is s c)] [.tag (Tag.close head' is' s' c')] := by
  refine .cons ?_ sameItems_nil
  rw [outlineItem, outlineItem, Tag.close, Tag.close, outlineTag, outlineTag, Block.ofItems,
    Block.ofItems, outlineBody, outlineBody, outlineBlock, outlineBlock,
    h, hattrs, hname, reword_id]

end Outlines

/-! ## Cursors -/

section Cursors

variable {σ : List Char → List Char} {c c' : Cursor}

/-- Rewording changes no kind. -/
@[simp] theorem Lexeme.kind_reword (l : Lexeme) : (l.reword σ).kind = l.kind := by cases l <;> rfl

/-- At the same place the next lexeme is the reworded one. -/
theorem Cursor.lexeme_reword (h : Rewords σ c.rest c'.rest) :
    c'.current.lexeme = c.current.lexeme.reword σ := by
  cases hr : c.rest with
  | nil =>
    rw [hr] at h
    have hr' : c'.rest = [] := List.map_eq_nil_iff.1 h
    rw [current, current, hr, hr']
    rfl
  | cons t ts =>
    rw [hr] at h
    obtain ⟨t', ts', hr', ht, -⟩ := List.map_eq_cons_iff.1 h
    rw [current, current, hr, hr']
    exact ht

/-- At the same place a token of the same kind is next. -/
theorem Cursor.kind_reword (h : Rewords σ c.rest c'.rest) : c'.kind = c.kind := by
  rw [kind, Token.kind, lexeme_reword h, Lexeme.kind_reword]
  rfl

/-- A lexeme without a payload is the same in other words. -/
theorem Cursor.lexeme_plain {l : Lexeme} (h : Rewords σ c.rest c'.rest)
    (hl : c.current.lexeme = l) (hp : l.kind.isPlain = true) : c'.current.lexeme = l :=
  Lexeme.eq_of_kind ((kind_reword h).trans (congrArg Lexeme.kind hl)) hp

/-- Two cursors at the same place move on to the same place. -/
theorem Cursor.advance_reword (h : Rewords σ c.rest c'.rest) :
    Rewords σ c.advance.rest c'.advance.rest := by
  by_cases hk : c.kind = .eof
  · rwa [advance_of_eof hk, advance_of_eof ((kind_reword h).trans hk)]
  · have hk' : c'.kind ≠ .eof := by rwa [kind_reword h]
    rw [Rewords, rest_advance hk, rest_advance hk', List.map_cons, List.map_cons] at h
    exact (List.cons.inj h).2

/-- Where a token is expected and found, its reworded one is found too. -/
theorem Cursor.expect_reword {d : Cursor} {k : Kind} (h : Rewords σ c.rest c'.rest)
    (hd : c.expect k = .ok d) :
    c'.expect k = .ok c'.advance ∧ Rewords σ d.rest c'.advance.rest := by
  rw [expect] at hd ⊢
  split at hd
  · rename_i hk
    obtain rfl := Except.ok.inj hd
    exact ⟨if_pos ((kind_reword h).trans hk), advance_reword h⟩
  · simp at hd

end Cursors

/-! ## Heads -/

section Reads

variable {σ : List Char → List Char} (hσ : TokenRewording σ) {c c' : Cursor}

/-- The attributes of a list are reworded one by one. -/
theorem listedAttributes_reword (h : Rewords σ c.rest c'.rest) :
    SameAttrs σ (listedAttributes c).1 (listedAttributes c').1 ∧
      Rewords σ (listedAttributes c).2.rest (listedAttributes c').2.rest := by
  fun_induction listedAttributes c generalizing c' with
  | case1 c name value hl attrs d hd ih =>
    obtain ⟨hattrs, hrest⟩ := ih (Cursor.advance_reword h)
    rw [hd] at hattrs hrest
    have hl' := Cursor.lexeme_reword h
    rw [hl, Lexeme.reword] at hl'
    rw [listedAttributes_attr hl']
    exact ⟨.cons (by simp [Attribute.outline]) hattrs, hrest⟩
  | case2 c hl =>
    have hk : c'.kind ≠ .attr := by
      rw [Cursor.kind_reword h]
      intro hk
      cases hx : c.current.lexeme with
      | attr name value => exact hl name value hx
      | _ => simp [Cursor.kind, Token.kind, hx, Lexeme.kind] at hk
    rw [listedAttributes_end hk]
    exact ⟨rfl, h⟩

include hσ

/-- A string that is shorter than the mark of a token holds no token. -/
theorem reword_of_short {s : String} (h : s.toList.length < Slots.mark.length) :
    reword σ s = s := by
  rw [reword, hσ.short h, String.ofList_toList]

/-- The quotes around a shorthand are not reworded. -/
theorem quoted_reword (s : String) : (quoted s).reword σ = quoted (reword σ s) := by
  have h : ("'" ++ s ++ "'").toList = '\'' :: (s.toList ++ ['\'']) := by simp [String.toList_append]
  have hquote : NoWord ['\''] := fun c hc => List.mem_singleton.1 hc ▸ rfl
  rw [quoted, quoted, AttrValue.reword, AttrValue.raw.injEq, ← String.toList_inj, reword,
    String.toList_ofList, h, hσ.cons rfl, hσ.append_noWord hquote]
  simp [String.toList_append, reword]

/-- A shorthand is an attribute with a short name. -/
theorem shorthand_outline {name : String} (hname : name.toList.length < Slots.mark.length)
    (x : String) (s s' : Span) : Attribute.outline id ⟨name, quoted (reword σ x), s'⟩ =
      Attribute.outline σ ⟨name, quoted x, s⟩ := by
  simp [Attribute.outline, reword_of_short hσ hname, quoted_reword hσ]

/-- A run of attributes that is read is read reworded. -/
theorem attributeRun_reword {d : Cursor} {as : List Attribute} (hc : Rewords σ c.rest c'.rest)
    (h : attributeRun c = .ok (as, d)) : ∃ bs d', attributeRun c' = .ok (bs, d') ∧
      SameAttrs σ as bs ∧ Rewords σ d.rest d'.rest := by
  fun_induction attributeRun c generalizing as c' with
  | case1 c x hl ih =>
    obtain ⟨as, he, rfl⟩ := map_fst_eq_ok_iff.1 h
    obtain ⟨bs, d', hbs, hattrs, hrest⟩ := ih (Cursor.advance_reword hc) he
    have hl' := Cursor.lexeme_reword hc
    rw [hl, Lexeme.reword] at hl'
    rw [attributeRun_idShorthand hl', hbs]
    exact ⟨_, d', rfl, .cons (shorthand_outline hσ (by decide) x _ _) hattrs, hrest⟩
  | case2 c x hl ih =>
    obtain ⟨as, he, rfl⟩ := map_fst_eq_ok_iff.1 h
    obtain ⟨bs, d', hbs, hattrs, hrest⟩ := ih (Cursor.advance_reword hc) he
    have hl' := Cursor.lexeme_reword hc
    rw [hl, Lexeme.reword] at hl'
    rw [attributeRun_classShorthand hl', hbs]
    exact ⟨_, d', rfl, .cons (shorthand_outline hσ (by decide) x _ _) hattrs, hrest⟩
  | case3 => simp at h
  | case4 c hl e he ih =>
    -- A list in parentheses: its attributes come before those of the rest of the run.
    obtain ⟨as, hf, rfl⟩ := map_fst_eq_ok_iff.1 h
    obtain ⟨hlist, hrest⟩ := listedAttributes_reword (Cursor.advance_reword hc)
    obtain ⟨he', hrest⟩ := Cursor.expect_reword hrest he
    obtain ⟨bs, d', hbs, hattrs, hd⟩ := ih hrest hf
    rw [attributeRun_list (Cursor.lexeme_plain hc hl rfl), he', Except.bind, hbs]
    refine ⟨_, d', rfl, ?_, hd⟩
    rw [SameAttrs, List.map_append, List.map_append, hlist, hattrs]
  | case5 c h1 h2 h3 =>
    -- What ends the run is of the same kind in other words.
    obtain ⟨rfl, rfl⟩ := Prod.mk.inj (Except.ok.inj h)
    refine ⟨[], c', attributeRun_end ?_, rfl, hc⟩
    rw [Cursor.kind_reword hc]
    cases hx : c.current.lexeme with
    | idShorthand x => exact absurd hx (h1 x)
    | classShorthand x => exact absurd hx (h2 x)
    | openAttributes => exact absurd hx h3
    | _ => simp [Cursor.kind, Token.kind, hx, Lexeme.kind]

/-- A head that is read is read reworded, name and attributes. -/
theorem readHead_reword {d : Cursor} {head : TagHead} (hc : Rewords σ c.rest c'.rest)
    (h : readHead c = .ok (head, d)) : ∃ head' d', readHead c' = .ok (head', d') ∧
      head'.name = reword σ head.name ∧ SameAttrs σ head.attrs head'.attrs ∧
      Rewords σ d.rest d'.rest := by
  have hl' := Cursor.lexeme_reword hc
  rw [readHead] at h
  split at h
  · rename_i name hl
    obtain ⟨as, he, rfl⟩ := map_fst_eq_ok_iff.1 h
    obtain ⟨bs, d', hbs, hattrs, hrest⟩ := attributeRun_reword hσ (Cursor.advance_reword hc) he
    rw [hl, Lexeme.reword] at hl'
    exact ⟨⟨reword σ name, bs⟩, d', by simp only [readHead, hl', hbs]; rfl, rfl, hattrs, hrest⟩
  · -- Without a name, the tag gets the default one, which is too short to be reworded.
    rename_i hl
    obtain ⟨as, he, rfl⟩ := map_fst_eq_ok_iff.1 h
    obtain ⟨bs, d', hbs, hattrs, hrest⟩ := attributeRun_reword hσ hc he
    have hdefault : reword σ defaultTag = defaultTag := reword_of_short hσ (by decide)
    refine ⟨⟨defaultTag, bs⟩, d', ?_, hdefault.symm, hattrs, hrest⟩
    rw [readHead]
    split
    · rename_i name hname
      cases hx : c.current.lexeme with
      | tag x => exact absurd hx (hl x)
      | _ => simp [hx, Lexeme.reword, hl'] at hname
    · rw [hbs]
      rfl

/-! ## Items -/

theorem newline_reword : reword σ "\n" = "\n" := reword_of_short hσ (by decide)

/-- A text block that is read is read reworded. -/
theorem textBlockItems_reword {d : Cursor} {is : List Item} (hc : Rewords σ c.rest c'.rest)
    (h : textBlockItems c = .ok (is, d)) : ∃ js d', textBlockItems c' = .ok (js, d') ∧
      SameItems σ is js ∧ Rewords σ d.rest d'.rest := by
  fun_induction textBlockItems c generalizing is c' with
  | case1 c value hl ih =>
    obtain ⟨is, he, rfl⟩ := map_fst_eq_ok_iff.1 h
    obtain ⟨js, d', hjs, hsame, hrest⟩ := ih (Cursor.advance_reword hc) he
    have hl' := Cursor.lexeme_reword hc
    rw [hl, Lexeme.reword] at hl'
    rw [textBlockItems_text hl', hjs]
    exact ⟨_, d', rfl, .cons (by simp [outlineItem]) hsame, hrest⟩
  | case2 c hl ih =>
    obtain ⟨is, he, rfl⟩ := map_fst_eq_ok_iff.1 h
    obtain ⟨js, d', hjs, hsame, hrest⟩ := ih (Cursor.advance_reword hc) he
    rw [textBlockItems_newline (Cursor.lexeme_plain hc hl rfl), hjs]
    exact ⟨_, d', rfl, .cons (by simp [outlineItem, newline_reword hσ]) hsame, hrest⟩
  | case3 c hl =>
    obtain ⟨rfl, rfl⟩ := Prod.mk.inj (Except.ok.inj h)
    rw [textBlockItems_close (Cursor.lexeme_plain hc hl rfl)]
    exact ⟨[], _, rfl, sameItems_nil, Cursor.advance_reword hc⟩
  | case4 => simp at h

/-- The line feed between two lines of text is not reworded. -/
theorem textItems_reword (a : Bool) (value : String) (s s' : Span) :
    SameItems σ (textItems a value s) (textItems a (reword σ value) s') := by
  have hempty : (reword σ value).isEmpty = value.isEmpty := by
    rw [Bool.eq_iff_iff, String.isEmpty_iff, String.isEmpty_iff, ← String.toList_eq_nil_iff,
      ← String.toList_eq_nil_iff, reword, String.toList_ofList, hσ.eq_nil_iff]
  rw [textItems, textItems, hempty]
  refine .append ?_ ?_
  · split
    · exact .cons (by simp [outlineItem, newline_reword hσ]) sameItems_nil
    · exact sameItems_nil
  · split
    · exact sameItems_nil
    · exact .cons (by simp [outlineItem]) sameItems_nil

/-- The parser reads tokens in other words as the same items, in other words. -/
theorem Reads.reword {g : Goal} {d : Cursor} {is : List Item} (h : Reads g c is d)
    (hc : Rewords σ c.rest c'.rest) : ∃ js d', Reads g c' js d' ∧ SameItems σ is js ∧
      Rewords σ d.rest d'.rest := by
  -- One rule of the grammar after the other: each asks for kinds of tokens only.
  induction h generalizing c' with
  | stop hl hs =>
    refine ⟨[], c', .stop ?_ ((Cursor.kind_reword hc).trans hs), sameItems_nil, hc⟩
    exact hl.imp (Cursor.lexeme_plain hc · rfl) (Cursor.lexeme_plain hc · rfl)
  | newline hl _ ih =>
    obtain ⟨js, d', hjs, hsame, hrest⟩ := ih (Cursor.advance_reword hc)
    exact ⟨js, d', .newline (Cursor.lexeme_plain hc hl rfl) hjs, hsame, hrest⟩
  | text hl _ ih =>
    obtain ⟨js, d', hjs, hsame, hrest⟩ := ih (Cursor.advance_reword hc)
    have hl' := Cursor.lexeme_reword hc
    rw [hl, Lexeme.reword] at hl'
    exact ⟨_, d', .text hl' hjs, (textItems_reword hσ _ _ _ _).append hsame, hrest⟩
  | comment hl _ ih =>
    obtain ⟨js, d', hjs, hsame, hrest⟩ := ih (Cursor.advance_reword hc)
    have hl' := Cursor.lexeme_reword hc
    rw [hl, Lexeme.reword] at hl'
    exact ⟨_, d', .comment hl' hjs, .cons (by simp [outlineItem]) hsame, hrest⟩
  | child hs _ _ ih ih' =>
    obtain ⟨js, d', hjs, hsame, hrest⟩ := ih hc
    obtain ⟨ks, e', hks, hsame', hrest'⟩ := ih' hrest
    exact ⟨_, e', .child (by rwa [Cursor.kind_reword hc]) hjs hks, hsame.append hsame', hrest'⟩
  | tag hs hh _ _ ih ih' =>
    obtain ⟨head', b', hh', hname, hattrs, hb⟩ := readHead_reword hσ hc hh
    obtain ⟨js, d', hjs, hsame, hrest⟩ := ih hb
    obtain ⟨ks, e', hks, hsame', hrest'⟩ := ih' hrest
    exact ⟨_, e', .tag (by rwa [Cursor.kind_reword hc]) hh' hjs hks,
      .close hname hattrs (hsame.append hsame') _ _ _ _, hrest'⟩
  | colon hl hs _ ih =>
    have hadv := Cursor.advance_reword hc
    obtain ⟨js, d', hjs, hsame, hrest⟩ := ih hadv
    exact ⟨js, d', .colon (Cursor.lexeme_plain hc hl rfl) (by rwa [Cursor.kind_reword hadv]) hjs,
      hsame, hrest⟩
  | block hl lines =>
    obtain ⟨js, d', hjs, hsame, hrest⟩ := textBlockItems_reword hσ (Cursor.advance_reword hc) lines
    exact ⟨js, d', .block (Cursor.lexeme_plain hc hl rfl) hjs, hsame, hrest⟩
  | inlineText hl =>
    have hl' := Cursor.lexeme_reword hc
    rw [hl, Lexeme.reword] at hl'
    exact ⟨_, _, .inlineText hl', .cons (by simp [outlineItem]) sameItems_nil,
      Cursor.advance_reword hc⟩
  | noInline hk =>
    exact ⟨[], c', .noInline (by rwa [Cursor.kind_reword hc]), sameItems_nil, hc⟩
  | nested hk _ hd ih =>
    obtain ⟨js, d', hjs, hsame, hrest⟩ := ih (Cursor.advance_reword hc)
    exact ⟨_, _, .nested ((Cursor.kind_reword hc).trans hk) hjs
      ((Cursor.kind_reword hrest).trans hd),
      hsame.block _ _, Cursor.advance_reword hrest⟩
  | noNested hk => exact ⟨[], c', .noNested (by rwa [Cursor.kind_reword hc]), sameItems_nil, hc⟩

end Reads

end SlotMarkup
