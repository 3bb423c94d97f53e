import SlotMarkup.Proofs.Crlf
import SlotMarkup.Proofs.GrammarAcceptance
import SlotMarkup.Proofs.Interpolation

/-!
# Parsing tokens with other attributes

The parser passes the texts of attributes on and never looks into them. From tokens with
a carriage return before every line feed of an attribute it reads the same items, with
these carriage returns in their attributes (`Reads.relabel_crlf`), and whether it reads any is a
matter of the kinds of tokens alone. So the tree of such tokens is as before but for its
attributes, and there is none if there was none (`ofTokens_crlf`).
-/

namespace SlotMarkup

/-! ## Relabelling -/

section Definitions

variable (σ : List Char → List Char)

/-- A lexeme with the texts of an attribute in other words, all others as they are. -/
def Lexeme.relabel : Lexeme → Lexeme
  | idShorthand name => idShorthand (SlotMarkup.reword σ name)
  | classShorthand name => classShorthand (SlotMarkup.reword σ name)
  | attr name value => attr (SlotMarkup.reword σ name) (value.reword σ)
  | l => l

/-- A token with the texts of an attribute in other words. -/
def Token.relabel (t : Token) : Token := ⟨t.lexeme.relabel σ, t.span⟩

/-- A cursor among tokens with attributes in other words. -/
def Cursor.relabel (c : Cursor) : Cursor := ⟨c.previous, c.rest.map (Token.relabel σ)⟩

/-- An attribute in other words. -/
def Attribute.relabel (a : Attribute) : Attribute := ⟨reword σ a.name, a.value.reword σ, a.span⟩

/-- A head with its attributes in other words. -/
def TagHead.relabel (head : TagHead) : TagHead := ⟨head.name, head.attrs.map (Attribute.relabel σ)⟩

mutual

/-- An item with its attributes in other words. -/
def relabelItem : Item → Item
  | .block b => .block (relabelBlock b)
  | .tag t => .tag (relabelTag t)
  | .text t => .text t
  | .comment c => .comment c

/-- Some items with their attributes in other words. -/
def relabelItems : List Item → List Item
  | [] => []
  | i :: is => relabelItem i :: relabelItems is

/-- A block with its attributes in other words. -/
def relabelBlock : BlockOf Item → BlockOf Item
  | ⟨nodes, span⟩ => ⟨relabelItems nodes, span⟩

/-- A body with its attributes in other words. -/
def relabelBody : Option (BlockOf Item) → Option (BlockOf Item)
  | none => none
  | some b => some (relabelBlock b)

/-- A tag with its attributes in other words. -/
def relabelTag : TagOf Item → TagOf Item
  | ⟨name, attrs, body, span⟩ => ⟨name, attrs.map (Attribute.relabel σ), relabelBody body, span⟩

end

end Definitions

section Items

variable {σ : List Char → List Char}

theorem relabelItems_eq_map (is : List Item) : relabelItems σ is = is.map (relabelItem σ) := by
  induction is with
  | nil => rfl
  | cons i is ih => rw [relabelItems, ih, List.map_cons]

@[simp] theorem relabelItems_append (is js : List Item) :
    relabelItems σ (is ++ js) = relabelItems σ is ++ relabelItems σ js := by
  simp [relabelItems_eq_map]

/-- Other attributes move nothing. -/
@[simp] theorem span_relabelItem (i : Item) : (relabelItem σ i).span = i.span := by
  cases i with
  | block b => cases b; rfl
  | tag t => cases t; rfl
  | text | comment => rfl

/-- A block can be made of items before or after their attributes are put in other words. -/
theorem relabelBlock_ofItems (is : List Item) (fallback : Span) :
    relabelBlock σ (Block.ofItems is fallback) = Block.ofItems (relabelItems σ is) fallback := by
  rw [Block.ofItems, Block.ofItems, relabelBlock, relabelItems_eq_map, List.head?_map,
    List.getLast?_map]
  cases is.head? <;> cases is.getLast? <;> simp

theorem relabelBlock_nestedBlock (indent : Span) (is : List Item) :
    relabelBlock σ (nestedBlock indent is) = nestedBlock indent (relabelItems σ is) := by
  rw [nestedBlock, nestedBlock, relabelBlock, relabelItems_eq_map, List.foldl_map]
  simp

/-- A tag in other words closes behind the same token. -/
theorem relabelTag_close (head : TagHead) (content : List Item) (start : Span) (c : Cursor) :
    relabelTag σ (Tag.close head content start c) =
      Tag.close (head.relabel σ) (relabelItems σ content) start (c.relabel σ) := by
  rw [Tag.close, Tag.close, relabelTag, relabelBody, relabelBlock_ofItems]
  rfl

/-- Texts have no attributes to put in other words. -/
theorem relabel_textItems (a : Bool) (value : String) (span : Span) :
    relabelItems σ (textItems a value span) = textItems a value span := by
  rw [textItems]
  split <;> split <;> rfl

end Items

/-! ## Cursors -/

section Cursors

variable {σ : List Char → List Char} {c : Cursor}

/-- A lexeme in other words is of the same kind. -/
@[simp] theorem Lexeme.kind_relabel (l : Lexeme) : (l.relabel σ).kind = l.kind := by cases l <;> rfl

namespace Cursor

variable (σ)

/-- The next token in other words is next. -/
theorem current_relabel (c : Cursor) : (c.relabel σ).current = c.current.relabel σ := by
  obtain ⟨_, _ | ⟨t, ts⟩⟩ := c <;> rfl

@[simp] theorem kind_relabel (c : Cursor) : (c.relabel σ).kind = c.kind := by
  rw [kind, Token.kind, current_relabel, Token.relabel, Lexeme.kind_relabel]
  rfl

@[simp] theorem span_current_relabel (c : Cursor) :
    (c.relabel σ).current.span = c.current.span := by
  rw [current_relabel, Token.relabel]

/-- A cursor moves on alike. -/
theorem advance_relabel (c : Cursor) : (c.relabel σ).advance = c.advance.relabel σ := by
  rw [advance, advance, atEnd, atEnd, kind_relabel]
  split
  · rfl
  · rw [span_current_relabel, relabel, relabel, List.map_tail]

variable {σ}

theorem lexeme_relabel {l : Lexeme} (h : c.current.lexeme = l) :
    (c.relabel σ).current.lexeme = l.relabel σ := by
  rw [current_relabel, Token.relabel, h]

/-- What is expected and found is found in other words, too. -/
theorem expect_relabel {d : Cursor} {k : Kind} (h : c.expect k = .ok d) :
    (c.relabel σ).expect k = .ok (d.relabel σ) := by
  rw [expect] at h ⊢
  split at h
  · rename_i hk
    rw [kind_relabel, if_pos hk, advance_relabel, Except.ok.inj h]
  · simp at h

end Cursor

/-! ## Heads and text blocks -/

/-- A list is read with each of its attributes in other words. -/
theorem listedAttributes_relabel (c : Cursor) : listedAttributes (c.relabel σ) =
    ((listedAttributes c).1.map (Attribute.relabel σ), (listedAttributes c).2.relabel σ) := by
  fun_induction listedAttributes c with
  | case1 c name value hl attrs d hd ih =>
    rw [hd] at ih
    rw [listedAttributes_attr (Cursor.lexeme_relabel hl), Cursor.advance_relabel, ih]
    simp [Attribute.relabel]
  | case2 c hl =>
    refine listedAttributes_end ?_
    rw [Cursor.kind_relabel]
    intro hk
    obtain ⟨name, value, hx⟩ := Lexeme.eq_attr hk
    exact hl name value hx

/-- A text block is read alike, as it holds no attributes. -/
theorem textBlockItems_relabel {d : Cursor} {is : List Item} (h : textBlockItems c = .ok (is, d)) :
    textBlockItems (c.relabel σ) = .ok (relabelItems σ is, d.relabel σ) := by
  fun_induction textBlockItems c generalizing is with
  | case1 c value hl ih =>
    obtain ⟨is, he, rfl⟩ := map_fst_eq_ok_iff.1 h
    rw [textBlockItems_text (Cursor.lexeme_relabel hl), Cursor.advance_relabel, ih he,
      Cursor.span_current_relabel]
    rfl
  | case2 c hl ih =>
    obtain ⟨is, he, rfl⟩ := map_fst_eq_ok_iff.1 h
    rw [textBlockItems_newline (Cursor.lexeme_relabel hl), Cursor.advance_relabel, ih he,
      Cursor.span_current_relabel]
    rfl
  | case3 c hl =>
    obtain ⟨rfl, rfl⟩ := Prod.mk.inj (Except.ok.inj h)
    rw [textBlockItems_close (Cursor.lexeme_relabel hl), Cursor.advance_relabel]
    rfl
  | case4 => simp at h

/-- Without line feeds there are no line breaks to change. -/
theorem reword_crlf {s : String} (h : '\n' ∉ s.toList) : reword crlf s = s := by
  rw [reword, crlf_of_not_mem h, String.ofList_toList]

/-- Shorthands are quoted, and quotes stay. -/
theorem quoted_crlf (s : String) : (quoted s).reword crlf = quoted (reword crlf s) := by
  have h : ("'" ++ s ++ "'").toList = '\'' :: (s.toList ++ ['\'']) := by simp [String.toList_append]
  have hquote : crlf ['\''] = ['\''] := crlf_of_not_mem (by decide)
  rw [quoted, quoted, AttrValue.reword, AttrValue.raw.injEq, ← String.toList_inj, reword,
    String.toList_ofList, h, crlf_cons (by decide), crlf_append, hquote]
  simp [String.toList_append, reword]

/-- Shorthands and lists are read with the other line breaks in their values. -/
theorem attributeRun_crlf {d : Cursor} {as : List Attribute} (h : attributeRun c = .ok (as, d)) :
    attributeRun (c.relabel crlf) = .ok (as.map (Attribute.relabel crlf), d.relabel crlf) := by
  -- The names that shorthands stand for have no line breaks.
  have hshort {name : String} (hname : '\n' ∉ name.toList) (x : String) (s : Span) :
      Attribute.relabel crlf ⟨name, quoted x, s⟩ = ⟨name, quoted (reword crlf x), s⟩ := by
    rw [Attribute.relabel, quoted_crlf, reword_crlf hname]
  fun_induction attributeRun c generalizing as with
  | case1 c x hl ih =>
    obtain ⟨as, he, rfl⟩ := map_fst_eq_ok_iff.1 h
    rw [attributeRun_idShorthand (Cursor.lexeme_relabel hl), Cursor.advance_relabel, ih he,
      Cursor.span_current_relabel, List.map_cons, hshort (by decide)]
    rfl
  | case2 c x hl ih =>
    obtain ⟨as, he, rfl⟩ := map_fst_eq_ok_iff.1 h
    rw [attributeRun_classShorthand (Cursor.lexeme_relabel hl), Cursor.advance_relabel, ih he,
      Cursor.span_current_relabel, List.map_cons, hshort (by decide)]
    rfl
  | case3 => simp at h
  | case4 c hl e he ih =>
    obtain ⟨as, hf, rfl⟩ := map_fst_eq_ok_iff.1 h
    rw [attributeRun_list (Cursor.lexeme_relabel hl), Cursor.advance_relabel,
      listedAttributes_relabel, Cursor.expect_relabel he, Except.bind, ih hf, List.map_append]
    rfl
  | case5 c h1 h2 h3 =>
    obtain ⟨rfl, rfl⟩ := Prod.mk.inj (Except.ok.inj h)
    refine attributeRun_end ?_
    rw [Cursor.kind_relabel]
    refine ⟨fun hk => ?_, fun hk => ?_, fun hk => h3 (Lexeme.eq_of_kind hk rfl)⟩
    · obtain ⟨x, hx⟩ := Lexeme.eq_idShorthand hk
      exact h1 x hx
    · obtain ⟨x, hx⟩ := Lexeme.eq_classShorthand hk
      exact h2 x hx

/-- A head is read with the other line breaks in the values of its attributes. -/
theorem readHead_crlf {d : Cursor} {head : TagHead} (h : readHead c = .ok (head, d)) :
    readHead (c.relabel crlf) = .ok (head.relabel crlf, d.relabel crlf) := by
  rw [readHead] at h
  split at h
  · rename_i name hl
    obtain ⟨as, he, rfl⟩ := map_fst_eq_ok_iff.1 h
    rw [readHead, Cursor.lexeme_relabel hl]
    simp only [Lexeme.relabel]
    rw [Cursor.advance_relabel, attributeRun_crlf he]
    rfl
  · rename_i hl
    obtain ⟨as, he, rfl⟩ := map_fst_eq_ok_iff.1 h
    rw [readHead]
    split
    · rename_i name hname
      have hk : c.kind = .tag := by
        rw [← Cursor.kind_relabel crlf, Cursor.kind, Token.kind, hname]
        rfl
      cases hx : c.current.lexeme with
      | tag x => exact absurd hx (hl x)
      | _ => simp [Cursor.kind, Token.kind, hx, Lexeme.kind] at hk
    · rw [attributeRun_crlf he]
      rfl

/-! ## Items -/

/-- The parser reads tokens with carriage returns in their attributes as the same items,
    with these carriage returns in their attributes. -/
theorem Reads.relabel_crlf {g : Goal} {d : Cursor} {is : List Item} (h : Reads g c is d) :
    Reads g (c.relabel crlf) (relabelItems crlf is) (d.relabel crlf) := by
  -- One rule of the grammar after the other: each asks for kinds of tokens only.
  induction h with
  | stop hl hs =>
    exact .stop (hl.imp Cursor.lexeme_relabel Cursor.lexeme_relabel) (by rwa [Cursor.kind_relabel])
  | newline hl _ ih =>
    rw [← Cursor.advance_relabel] at ih
    exact .newline (Cursor.lexeme_relabel hl) ih
  | text hl _ ih =>
    rw [← Cursor.advance_relabel] at ih
    rw [relabelItems_append, relabel_textItems, ← Cursor.span_current_relabel crlf]
    exact .text (Cursor.lexeme_relabel hl) ih
  | comment hl _ ih =>
    rw [← Cursor.advance_relabel] at ih
    rw [relabelItems, ← Cursor.span_current_relabel crlf]
    exact .comment (Cursor.lexeme_relabel hl) ih
  | child hs _ _ ih ih' =>
    rw [relabelItems_append]
    exact .child (by rwa [Cursor.kind_relabel]) ih ih'
  | tag hs hh _ _ ih ih' =>
    rw [relabelItems, relabelItem, relabelTag_close, relabelItems_append,
      ← Cursor.span_current_relabel crlf]
    exact .tag (by rwa [Cursor.kind_relabel]) (readHead_crlf hh) ih ih'
  | colon hl hs _ ih =>
    rw [← Cursor.advance_relabel] at ih
    exact .colon (Cursor.lexeme_relabel hl)
      (by rwa [Cursor.advance_relabel, Cursor.kind_relabel]) ih
  | block hl lines =>
    refine .block (Cursor.lexeme_relabel hl) ?_
    rw [Cursor.advance_relabel, textBlockItems_relabel lines]
  | inlineText hl =>
    rw [relabelItems, relabelItem, ← Cursor.span_current_relabel crlf,
      ← Cursor.advance_relabel]
    exact .inlineText (Cursor.lexeme_relabel hl)
  | noInline hk => exact .noInline (by simpa using hk)
  | nested hk _ hd ih =>
    rw [← Cursor.advance_relabel] at ih
    rw [relabelItems, relabelItem, relabelBlock_nestedBlock, ← Cursor.advance_relabel,
      ← Cursor.span_current_relabel crlf]
    exact .nested (by rwa [Cursor.kind_relabel]) ih (by rwa [Cursor.kind_relabel])
  | noNested hk => exact .noNested (by rwa [Cursor.kind_relabel])

end Cursors

/-! ## Documents -/

/-- The tokens `us` are the tokens `ts` with their attributes in other words, wherever they
    were read. -/
def Relabels (σ : List Char → List Char) (ts us : List Token) : Prop :=
  us.map Token.lexeme = ts.map fun t => t.lexeme.relabel σ

/-- A template is parsed with the other line breaks in the values of its attributes. -/
theorem Block.ofTokens_relabel_crlf {tokens : List Token} {block : Block}
    (h : Block.ofTokens tokens = .ok block) :
    Block.ofTokens (tokens.map (Token.relabel crlf)) = .ok (relabelBlock crlf block) := by
  rw [Block.ofTokens_eq] at h
  obtain ⟨⟨items, e⟩, hread, rfl⟩ := map_eq_ok_iff.1 h
  have hread' : (Goal.items .eof false).read (.ofTokens (tokens.map (Token.relabel crlf))) = _ :=
    (Reads.of_read hread).relabel_crlf.read
  rw [Block.ofTokens_eq, hread', relabelBlock_ofItems, ← Cursor.span_current_relabel crlf]
  rfl

theorem tokenRewording_id : TokenRewording id where
  append _ := rfl
  single _ := rfl
  word hw hne := ⟨hw, hne⟩
  short _ := rfl

/-- Tokens with carriage returns in their attributes, read at other places, are parsed to the
    same items with these carriage returns, at other places. -/
theorem ofTokens_crlf {ts us : List Token} (h : Relabels crlf ts us) {block : Block}
    (hparse : Block.ofTokens ts = .ok block) : ∃ block', Block.ofTokens us = .ok block' ∧
      outlineBlock id block' = outlineBlock id (relabelBlock crlf block) := by
  have hus : Rewords id (ts.map (Token.relabel crlf)) us := by
    rw [rewords_id, h, List.map_map]
    rfl
  exact Block.ofTokens_reword tokenRewording_id hus (Block.ofTokens_relabel_crlf hparse)

/-- Whether tokens are parsed is a matter of their kinds. -/
theorem ofTokens_of_kinds {ts us : List Token} (h : us.map Token.kind = ts.map Token.kind)
    {block : Block} (hparse : Block.ofTokens ts = .ok block) :
    ∃ block', Block.ofTokens us = .ok block' := by
  rw [Block.ofTokens_eq] at hparse
  obtain ⟨⟨is, d⟩, hread, -⟩ := map_eq_ok_iff.1 hparse
  obtain ⟨ks, hks, hc⟩ := (Reads.of_read hread).derives
  rw [Cursor.kinds_of_eof (Reads.of_read hread).kind_stop] at hc
  have hkinds : (Cursor.ofTokens us).kinds = ks ++ [] := by
    rw [← hc]
    exact congrArg (List.takeWhile (· != .eof)) h
  obtain ⟨is', d', hread', -⟩ :=
    (accepts (.ofTokens us)).items false (.inl ⟨rfl, rfl⟩) (hkinds ▸ .items hks)
  exact ⟨_, by rw [Block.ofTokens_eq, hread']; rfl⟩

/-- Tokens in other words are of the same kinds. -/
theorem Relabels.kinds {σ : List Char → List Char} {ts us : List Token} (h : Relabels σ ts us) :
    us.map Token.kind = ts.map Token.kind := by
  have hkinds := congrArg (List.map Lexeme.kind) h
  rw [List.map_map, List.map_map] at hkinds
  refine hkinds.trans (List.map_congr_left fun t _ => ?_)
  rw [Function.comp_apply, Lexeme.kind_relabel, Token.kind]

end SlotMarkup
