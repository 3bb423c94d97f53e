import SlotMarkup.Proofs.CompileSlots
import SlotMarkup.Proofs.TreeFilling

/-!
# Interpolating strings

Rendering a template with strings is writing the strings into its text and compiling
that (`compile_interpolate`). The text with the strings is the text of the template in
other words. So it is cut into the same tokens (`scan_reword`) and parsed to the same
items (`Block.ofTokens_reword`) in other words, and their tree is that of the template,
filled (`treeMap_fill`).

The tokens of slots have to stand where a value can stand (`Slots.Fillable`). The heads
of the tags then have them where they can be filled in (`readHead_fillable`).
-/

namespace SlotMarkup

/-! ## Where slots can be -/

/-- Slots are in texts and comments, or one is all of an attribute's value, quoted or
    not, or all of an id. -/
def Slots.Fillable (s : Slots) : Lexeme → Prop
  | .tag name | .classShorthand name => s.contains name = false
  | .idShorthand name => s.contains name = false ∨ (s.index? name).isSome = true
  | .attr name .bare => s.contains name = false
  | .attr name (.raw text) => s.contains name = false ∧
    (s.contains text = false ∨ (name ≠ "class" ∧ (s.index? (unquote text)).isSome = true))
  | _ => True

instance (s : Slots) (l : Lexeme) : Decidable (s.Fillable l) :=
  match l with
  | .tag name | .classShorthand name => inferInstanceAs (Decidable (s.contains name = false))
  | .idShorthand name =>
    inferInstanceAs (Decidable (s.contains name = false ∨ (s.index? name).isSome = true))
  | .attr name .bare => inferInstanceAs (Decidable (s.contains name = false))
  | .attr name (.raw text) => inferInstanceAs (Decidable (s.contains name = false ∧
      (s.contains text = false ∨ (name ≠ "class" ∧ (s.index? (unquote text)).isSome = true))))
  | .openAttributes | .closeAttributes | .text _ | .openTextBlock | .closeTextBlock | .colon
  | .comment _ _ | .newline | .indent | .outdent | .eof => inferInstanceAs (Decidable True)

section Heads

variable {s : Slots} {c d : Cursor}

/-- Slots can be in all the tokens from a cursor on. -/
def Cursor.Fillable (s : Slots) (c : Cursor) : Prop := ∀ t ∈ c.rest, s.Fillable t.lexeme

theorem Cursor.Fillable.of_suffix (h : c.Fillable s) (hs : d.rest <:+ c.rest) : d.Fillable s :=
  fun t ht => h t (hs.subset ht)

/-- A token that is not the end is one that can be filled. -/
theorem Cursor.Fillable.lexeme (h : c.Fillable s) {l : Lexeme} (hl : c.current.lexeme = l)
    (hk : l.kind ≠ .eof) : s.Fillable l := by
  rw [← hl]
  refine h c.current ?_
  rw [rest_advance (kind_ne_eof hl hk)]
  exact List.mem_cons_self

/-- An attribute that is read can be filled if its token can. -/
theorem Attribute.fillable_of_attr {name : String} {value : AttrValue}
    (h : s.Fillable (.attr name value)) (span : Span) :
    Attribute.Fillable s ⟨name, value, span⟩ := by
  cases value with
  | bare => exact ⟨h, fun text ht => by simp at ht⟩
  | raw text =>
    refine ⟨h.1, fun text' ht => ?_⟩
    obtain rfl := AttrValue.raw.inj ht
    exact h.2.imp_right fun hw => ⟨by simpa [isClass] using hw.1, hw.2⟩

theorem Attribute.fillable_quoted {name x : String} (hname : name.toList.length < Slots.mark.length)
    (hx : s.contains x = false) (span : Span) : Attribute.Fillable s ⟨name, quoted x, span⟩ := by
  refine ⟨Slots.contains_of_length_lt hname, fun text ht => .inl ?_⟩
  rw [Slots.contains_eq_false_iff_uses] at hx ⊢
  intro index
  have hmeasure := quoted_measure (Slots.tokenMeasure_uses s index) x
  have ht' : quoted x = .raw text := ht
  rw [ht', AttrValue.texts, weigh_cons, weigh_nil, Nat.add_zero, hx index] at hmeasure
  exact hmeasure

/-- The attribute of an id can be filled if its shorthand can. -/
theorem Attribute.fillable_of_id {x : String} (h : s.Fillable (.idShorthand x)) (span : Span) :
    Attribute.Fillable s ⟨"id", quoted x, span⟩ := by
  have hname : "id".toList.length < Slots.mark.length := by decide
  rcases h with hno | htoken
  · exact fillable_quoted hname hno span
  · refine ⟨Slots.contains_of_length_lt hname, fun text ht => .inr ⟨rfl, ?_⟩⟩
    obtain rfl := AttrValue.raw.inj ht
    rwa [unquote_quoted]

/-! ## Heads that are read -/

/-- The attributes of a list can be filled if its tokens can. -/
theorem listedAttributes_fillable (h : c.Fillable s) :
    ∀ a ∈ (listedAttributes c).1, a.Fillable s := by
  fun_induction listedAttributes c with
  | case1 c name value hl attrs d hd ih =>
    intro a ha
    rw [hd] at ih
    rcases List.mem_cons.1 ha with rfl | ha
    · exact Attribute.fillable_of_attr (h.lexeme hl (by simp [Lexeme.kind])) _
    · exact ih (h.of_suffix c.advance_suffix) a ha
  | case2 => simp

theorem attributeRun_fillable {attrs : List Attribute} (hc : c.Fillable s)
    (h : attributeRun c = .ok (attrs, d)) : ∀ a ∈ attrs, a.Fillable s := by
  fun_induction attributeRun c generalizing attrs with
  | case1 c x hl ih =>
    obtain ⟨as, he, rfl⟩ := map_fst_eq_ok_iff.1 h
    refine List.forall_mem_cons.2 ⟨?_, ih (hc.of_suffix c.advance_suffix) he⟩
    exact Attribute.fillable_of_id (hc.lexeme hl (by simp [Lexeme.kind])) _
  | case2 c x hl ih =>
    obtain ⟨as, he, rfl⟩ := map_fst_eq_ok_iff.1 h
    refine List.forall_mem_cons.2 ⟨?_, ih (hc.of_suffix c.advance_suffix) he⟩
    exact Attribute.fillable_quoted (by decide) (hc.lexeme hl (by simp [Lexeme.kind])) _
  | case3 => simp at h
  | case4 c hl e he ih =>
    obtain ⟨as, hf, rfl⟩ := map_fst_eq_ok_iff.1 h
    have hlist : ∀ a ∈ (listedAttributes c.advance).1, a.Fillable s :=
      listedAttributes_fillable (hc.of_suffix c.advance_suffix)
    have hsuffix : e.rest <:+ c.rest :=
      (Cursor.expect_suffix he).trans ((listedAttributes_suffix _).trans c.advance_suffix)
    exact List.forall_mem_append.2 ⟨hlist, ih (hc.of_suffix hsuffix) hf⟩
  | case5 =>
    obtain ⟨rfl, rfl⟩ := Prod.mk.inj (Except.ok.inj h)
    simp

/-- A head can be filled if its tokens can. -/
theorem readHead_fillable {head : TagHead} (hc : c.Fillable s)
    (hnames : TagNames StartsWithWord c.rest) (h : readHead c = .ok (head, d)) :
    head.Fillable s where
  name := by
    refine readHead_name (P := fun name => s.contains name = false)
      (Slots.contains_of_length_lt (by decide)) (fun t ht name hl => ?_) h
    have hfill := hc t ht
    rwa [hl] at hfill
  element := readHead_name (P := fun name => name ≠ fragmentTag ∧ name ≠ textTag) (by decide)
    (fun t ht name hl => ⟨(hnames t ht name hl).ne_fragmentTag, (hnames t ht name hl).ne_textTag⟩) h
  attrs := by
    rw [readHead] at h
    split at h
    all_goals
      obtain ⟨as, he, rfl⟩ := map_fst_eq_ok_iff.1 h
    · exact attributeRun_fillable (hc.of_suffix c.advance_suffix) he
    · exact attributeRun_fillable hc he

end Heads

/-! ## Templates -/

/-- In the head of every tag of a text, slots are where its tokens have them. -/
theorem blockHeads_fillable {s : Slots} {text : String} {tokens : List Token} {block : Block}
    (hfill : ∀ t ∈ tokens, s.Fillable t.lexeme) (hscan : Token.scan text = .ok tokens)
    (hparse : Block.ofTokens tokens = .ok block) : ∀ head ∈ blockHeads block, head.Fillable s := by
  rw [Block.ofTokens_eq] at hparse
  obtain ⟨⟨items, e⟩, hread, rfl⟩ := map_eq_ok_iff.1 hparse
  have hnames := (following_of_read hscan hread).1.tagNames
  have htokens : (Cursor.ofTokens tokens).Fillable s := hfill
  exact (Reads.of_read hread).heads fun hb hh =>
    readHead_fillable (htokens.of_suffix hb) (hnames.of_suffix hb) hh

/-- Tokens in other words are parsed to the same items in other words. -/
theorem Block.ofTokens_reword {σ : List Char → List Char} (hσ : TokenRewording σ)
    {tokens tokens' : List Token} {block : Block} (h : Rewords σ tokens tokens')
    (hparse : Block.ofTokens tokens = .ok block) : ∃ block', Block.ofTokens tokens' = .ok block' ∧
      outlineBlock id block' = outlineBlock σ block := by
  rw [Block.ofTokens_eq] at hparse
  obtain ⟨⟨items, e⟩, hread, rfl⟩ := map_eq_ok_iff.1 hparse
  have hrest : Rewords σ (Cursor.ofTokens tokens).rest (Cursor.ofTokens tokens').rest := h
  obtain ⟨items', e', hreads, hsame, -⟩ := (Reads.of_read hread).reword hσ hrest
  refine ⟨Block.ofItems items' e'.current.span, ?_, ?_⟩
  · rw [Block.ofTokens_eq, hreads.read]
    rfl
  · exact congrArg (fun is => (⟨is, .nowhere⟩ : Block)) hsame

/-- The text of a template in other words has the same tree in other words. -/
theorem parse_reword {σ : List Char → List Char} (hσ : TokenRewording σ) {text text' : String}
    (htext : text'.toList = σ text.toList) {tokens : List Token} {block : Block}
    (hscan : Token.scan text = .ok tokens) (hparse : Block.ofTokens tokens = .ok block)
    (hnames : TagNames (fun name => reword σ name = name) tokens) :
    ∃ block', Block.parse text' = .ok block' ∧
      block'.toValue = Block.toValue (outlineBlock σ block) := by
  obtain ⟨tokens', hscan', hrewords⟩ := scan_reword hσ.toRewording htext hscan hnames
  obtain ⟨block', hparse', hsame⟩ := Block.ofTokens_reword hσ hrewords hparse
  refine ⟨block', by rw [Block.parse, hscan']; exact hparse', ?_⟩
  rw [← hsame]
  exact treeMap_id.toValue block' (blockHeads_name_ne hscan' hparse')

namespace Template

/-- A single fragment is its own text. -/
theorem encode_single (f : String) : (Slots.ofFragments [f]).encode [f] = f := by
  rw [Slots.encode, Slots.encodeFrom, String.ofList_toList]

/-- A template rendered with strings of word characters, its texts joined again, is the
    tree of the template that has them written in the place of its slots. The tokens of
    slots have to be in texts and comments, or all of an attribute's value or of an id. -/
theorem compile_interpolate {fragments values : List String} {t : Template}
    (hclean : ∀ f ∈ fragments, Slots.Clean f.toList) (h : compile fragments = .ok t)
    (hfill : ∀ tokens, Token.scan (dedent ((Slots.ofFragments fragments).encode fragments)) =
      .ok tokens → ∀ token ∈ tokens, (Slots.ofFragments fragments).Fillable token.lexeme)
    (hlen : values.length = (Slots.ofFragments fragments).count)
    (hvalues : ∀ v ∈ values, v ≠ "" ∧ v.toList.all isWord = true) :
    ∃ t', compile [interpolate fragments values] = .ok t' ∧
      t'.tree = (t.render (values.map .str)).rejoin := by
  obtain ⟨tokens, block, hscan, hparse, ht⟩ := compile_eq_ok h
  generalize hs : Slots.ofFragments fragments = s at *
  have hσ : TokenRewording (s.refill (Slots.wordOf values)) :=
    Slots.tokenRewording_refill (Slots.wordOf_spec hlen hvalues)
  -- The text with the values is the text with the tokens in other words, also dedented.
  have htext : (dedent (interpolate fragments values)).toList =
      s.refill (Slots.wordOf values) (dedent (s.encode fragments)).toList := by
    subst hs
    rw [dedent, dedent, String.toList_ofList, String.toList_ofList,
      ← Slots.refill_encode hclean hlen, hσ.dedentChars]
  -- No tag name holds a token.
  have hnames :
      TagNames (fun name => reword (s.refill (Slots.wordOf values)) name = name) tokens := by
    intro token htoken name hl
    have hfillable := hfill tokens hscan token htoken
    rw [hl] at hfillable
    exact Slots.reword_of_contains hfillable
  obtain ⟨block', hparse', hvalue⟩ := parse_reword hσ htext hscan hparse hnames
  refine ⟨fixed block'.toValue, ?_, ?_⟩
  · rw [compile, encode_single]
    simp only [hparse']
    rfl
  · rw [ht]
    split
    · -- Without slots nothing is reworded, and nothing is filled.
      rename_i hcount
      rw [tree, hvalue, render, Slots.refill_of_count hcount]
      exact (treeMap_rejoin.toValue block (blockHeads_name_ne hscan hparse)).symm
    · rw [tree, hvalue, render]
      have hheads := blockHeads_fillable (hfill tokens hscan) hscan hparse
      exact ((treeMap_fill hσ.toRewording hlen).toValue block hheads).symm

/-- Slots for an id, for two values of attributes, in a text and in a comment. -/
theorem compile_interpolate_everywhere :
    let fragments := ["p#", "(a='", "' b=", ")\n | x ", "!\n// ", ""]
    let values := ["main", "tip", "en", "y", "note_1"]
    interpolate fragments values = "p#main(a='tip' b=en)\n | x y!\n// note_1" ∧
      ∃ t t', compile fragments = .ok t ∧ compile [interpolate fragments values] = .ok t' ∧
        t'.tree = (t.render (values.map .str)).rejoin := by
  intro fragments values
  have hclean : ∀ f ∈ fragments, Slots.Clean f.toList := by
    intro f hf
    refine Slots.clean_of_length_lt ?_
    revert f
    decide
  have hcompile : (compile fragments).toOption.isSome = true := by decide +kernel
  obtain ⟨t, ht⟩ := Option.isSome_iff_exists.1 hcompile
  have ht := ok_of_toOption ht
  have hscan : ∀ tokens ∈
        (Token.scan (dedent ((Slots.ofFragments fragments).encode fragments))).toOption,
      ∀ token ∈ tokens, (Slots.ofFragments fragments).Fillable token.lexeme := by
    decide +kernel
  have hfill : ∀ tokens, Token.scan (dedent ((Slots.ofFragments fragments).encode fragments)) =
      .ok tokens → ∀ token ∈ tokens, (Slots.ofFragments fragments).Fillable token.lexeme :=
    fun tokens h => hscan tokens (by rw [h]; rfl)
  have hlen : values.length = (Slots.ofFragments fragments).count := rfl
  obtain ⟨t', ht', htree⟩ := compile_interpolate hclean ht hfill hlen (by decide)
  exact ⟨by decide, t, t', ht, ht', htree⟩

end Template

end SlotMarkup
