import SlotMarkup.Proofs.DedentMeasure
import SlotMarkup.Proofs.TreeMeasure
import SlotMarkup.Template.Basic

/-!
# Compiling loses and duplicates no slot

From the text of a template to its tree, words are neither lost nor repeated: in
dedenting (`dedent_measure`), in scanning (`scan_measure`), in parsing
(`Reads.measure`), and in building the tree (`items_keep`). Counting the tokens of
a slot is a measure of words, so every slot is found once in the compiled tree, if
it is in no comment and the attributes are unambiguous (`occurs_compile`).
-/

namespace SlotMarkup

theorem StartsWithWord.ne_fragmentTag {name : String} (h : StartsWithWord name) :
    name ≠ fragmentTag := by
  rintro rfl
  obtain ⟨c, ⟨rfl⟩, hw⟩ := h
  exact absurd hw (by decide)

theorem StartsWithWord.ne_textTag {name : String} (h : StartsWithWord name) : name ≠ textTag := by
  rintro rfl
  obtain ⟨c, ⟨rfl⟩, hw⟩ := h
  exact absurd hw (by decide)

section Measure

variable {μ : List Char → Nat} (hμ : TokenMeasure μ)

include hμ

/-- The strings of the tokens of a text are those of what is parsed from them. -/
theorem ofTokens_measure {text : String} {tokens : List Token} {block : Block}
    (hscan : Token.scan text = .ok tokens) (hparse : Block.ofTokens tokens = .ok block) :
    weigh μ (Token.contents tokens) =
      weigh μ (headsContents (blockHeads block) (blockTexts block)) := by
  rw [Block.ofTokens_eq] at hparse
  obtain ⟨⟨items, e⟩, hread, rfl⟩ := map_eq_ok_iff.1 hparse
  obtain ⟨-, t, he, ht⟩ := following_of_read hscan hread
  have hconserved := (Reads.of_read hread).measure hμ
  -- Only the end of the template is left, and it carries no string.
  have hend : e.measure μ = 0 := by
    rw [Cursor.measure, he, Token.contents, List.flatMap_cons, Lexeme.eq_of_kind (m := .eof) ht rfl]
    rfl
  rw [hend, Nat.add_zero] at hconserved
  exact hconserved

omit hμ in
theorem blockHeads_name_ne {text : String} {tokens : List Token} {block : Block}
    (hscan : Token.scan text = .ok tokens) (hparse : Block.ofTokens tokens = .ok block) :
    ∀ head ∈ blockHeads block, head.name ≠ fragmentTag := by
  rw [Block.ofTokens_eq] at hparse
  obtain ⟨⟨items, e⟩, hread, rfl⟩ := map_eq_ok_iff.1 hparse
  have hnames := (following_of_read hscan hread).1.tagNames
  exact (Reads.of_read hread).heads fun hb hh =>
    readHead_name (P := (· ≠ fragmentTag)) (by decide)
      (fun t ht name hl => (hnames t (hb.subset ht) name hl).ne_fragmentTag) hh

/-- The tree of a text has no more than the strings of its tokens, and all of them if
    nothing is lost in its attributes and no word counts twice. -/
theorem toValue_measure {text : String} {tokens : List Token} {block : Block}
    (hscan : Token.scan text = .ok tokens) (hparse : Block.ofTokens tokens = .ok block) :
    weigh μ block.toValue.strings ≤ weigh μ (Token.contents tokens) ∧
      ((∀ head ∈ blockHeads block, Unambiguous head.attrs) →
        weigh μ (Token.contents tokens) ≤ 1 →
        weigh μ block.toValue.strings = weigh μ (Token.contents tokens)) := by
  have hkeep := block_keep hμ block
  have hnames := blockHeads_name_ne hscan hparse
  rw [weigh_toValue hμ, ofTokens_measure hμ hscan hparse]
  exact ⟨hkeep.le, fun hattrs hone =>
    hkeep.eq (fun head hh => ⟨hattrs head hh, hnames head hh⟩) hone⟩

end Measure

/-! ## Templates -/

namespace Slots

variable {s : Slots}

/-- How often the token of a slot is found in the strings of a tree. -/
def occursIn (s : Slots) (index : Nat) (tree : Value) : Nat :=
  (tree.strings.map (s.occurs index)).sum

theorem sum_occurs (index : Nat) (ss : List String) :
    (ss.map (s.occurs index)).sum = weigh (s.uses index) ss :=
  congrArg List.sum (List.map_congr_left fun text _ => occurs_eq_uses index text)

end Slots

/-- What comes of the text of a template that is compiled. -/
theorem Template.compile_eq_ok {fragments : List String} {t : Template}
    (h : compile fragments = .ok t) : let s := Slots.ofFragments fragments
    ∃ tokens block, Token.scan (dedent (s.encode fragments)) = .ok tokens ∧
      Block.ofTokens tokens = .ok block ∧
      t = if s.count = 0 then fixed block.toValue else slotted s block.toValue := by
  obtain ⟨block, hblock, rfl⟩ := map_eq_ok_iff.1 h
  rw [Block.parse] at hblock
  split at hblock
  · simp at hblock
  · rename_i tokens htokens
    exact ⟨tokens, block, htokens, hblock, rfl⟩

/-- A template is compiled if its text is parsed. -/
theorem Template.compile_of_parse {fragments : List String} {block : Block}
    (h : Block.parse (dedent ((Slots.ofFragments fragments).encode fragments)) = .ok block) :
    ∃ t, compile fragments = .ok t := by
  simp only [compile, h]
  exact ⟨_, rfl⟩

/-- The tokens of a template hold every slot once, in their strings or in a comment. -/
theorem Slots.weight_scan {fragments : List String} {tokens : List Token}
    (hclean : ∀ f ∈ fragments, Clean f.toList) (hcr : ∀ f ∈ fragments, CrlfOnly f.toList)
    (hscan : Token.scan (dedent ((ofFragments fragments).encode fragments)) = .ok tokens)
    {index : Nat} (hindex : index < (ofFragments fragments).count) :
    Token.weight ((ofFragments fragments).uses index) tokens = 1 := by
  have hμ := tokenMeasure_uses (ofFragments fragments) index
  have hsource : (dedent ((ofFragments fragments).encode fragments)).toList =
      dedentChars ((ofFragments fragments).encode fragments).toList := String.toList_ofList
  have hencode : CrlfOnly ((ofFragments fragments).encode fragments).toList := by
    rw [encode, String.toList_ofList]
    exact crlfOnly_encodeFrom hcr 0
  rw [← scan_measure hμ.toWordMeasure (by rw [hsource]; exact crlfOnly_dedent hencode) hscan,
    hsource, dedent_measure hμ.toWordMeasure, uses_encode hclean hindex]

/-- In the tree of a template the token of every slot is found once, if the slot is in
    no comment and nothing is lost in the attributes. In a comment it is not found. -/
theorem Template.occurs_compile {fragments : List String} {t : Template}
    (hclean : ∀ f ∈ fragments, Slots.Clean f.toList) (hcr : ∀ f ∈ fragments, CrlfOnly f.toList)
    (h : Template.compile fragments = .ok t) {index : Nat}
    (hindex : index < (Slots.ofFragments fragments).count) :
    let s := Slots.ofFragments fragments
    let source := dedent (s.encode fragments)
    ∃ tokens block, Token.scan source = .ok tokens ∧ Block.parse source = .ok block ∧
      ((∃ text ∈ Token.comments tokens, s.occurs index text ≠ 0) → s.occursIn index t.tree = 0) ∧
      ((∀ text ∈ Token.comments tokens, s.occurs index text = 0) →
        (∀ head ∈ blockHeads block, Unambiguous head.attrs) → s.occursIn index t.tree = 1) := by
  intro s source
  have hμ := Slots.tokenMeasure_uses s index
  obtain ⟨tokens, block, hscan, hparse, ht⟩ := compile_eq_ok h
  have htree : t.tree = block.toValue := by
    rw [ht]
    split <;> rfl
  have hweight : Token.weight (s.uses index) tokens = 1 :=
    Slots.weight_scan hclean hcr hscan hindex
  obtain ⟨hle, heq⟩ := toValue_measure hμ hscan hparse
  rw [Token.weight] at hweight
  refine ⟨tokens, block, hscan, by rw [Block.parse, hscan]; exact hparse, ?_, ?_⟩
  · rintro ⟨text, htext, hoccurs⟩
    rw [Slots.occurs_eq_uses] at hoccurs
    rw [Slots.occursIn, Slots.sum_occurs, htree]
    -- The comment has the only token of the slot.
    have hcomments : weigh (s.uses index) (Token.comments tokens) ≠ 0 :=
      fun hzero => hoccurs (weigh_eq_zero_iff.1 hzero text htext)
    omega
  · intro hcomments hattrs
    rw [Slots.occursIn, Slots.sum_occurs, htree]
    have hzero : weigh (s.uses index) (Token.comments tokens) = 0 :=
      weigh_eq_zero_iff.2 fun text htext => Slots.occurs_eq_uses index text ▸ hcomments text htext
    rw [hzero] at hweight
    rw [heq hattrs (by omega)]
    omega

/-- A slot in the value of an attribute, in a piped line and in a comment. -/
theorem Template.occurs_compile_in_comment :
    let fragments := ["p#a(title='", "' b)\n  | x", "\n// ", "\r\n"]
    let s := Slots.ofFragments fragments
    ∃ t, compile fragments = .ok t ∧ s.occursIn 0 t.tree = 1 ∧ s.occursIn 2 t.tree = 0 := by
  intro fragments s
  have hclean : ∀ f ∈ fragments, Slots.Clean f.toList := by
    intro f hf
    refine Slots.clean_of_length_lt ?_
    revert f
    decide
  have hcr : ∀ f ∈ fragments, CrlfOnly f.toList := by
    simp [fragments, crlfOnly_cons, crlfOnly_nil]
  have hcomments : (Token.scan (dedent (s.encode fragments))).toOption.map Token.comments =
      some ["emjay_substitution2"] := by decide +kernel
  have hheads : (Block.parse (dedent (s.encode fragments))).toOption.map blockHeads =
      some [⟨"p", [⟨"id", .raw "'a'", ⟨1, 3⟩⟩, ⟨"title", .raw "'emjay_substitution0'", ⟨4, 31⟩⟩,
        ⟨"b", .bare, ⟨32, 33⟩⟩]⟩] := by decide +kernel
  obtain ⟨block, hblock, -⟩ := Option.map_eq_some_iff.1 hheads
  obtain ⟨t, ht⟩ := compile_of_parse (ok_of_toOption hblock)
  refine ⟨t, ht, ?_, ?_⟩
  · obtain ⟨tokens, block, hscan, hparse, -, hone⟩ :=
      occurs_compile hclean hcr ht (show 0 < s.count by decide)
    rw [hscan] at hcomments
    rw [hparse] at hheads
    refine hone ?_ ?_
    · rw [Option.some.inj hcomments]
      decide +kernel
    · rw [Option.some.inj hheads]
      intro head hhead
      rw [List.mem_singleton.1 hhead]
      exact ⟨by simp [Attribute.isClass], by simp [Attribute.isClass]⟩
  · obtain ⟨tokens, block, hscan, -, hzero, -⟩ :=
      occurs_compile hclean hcr ht (show 2 < s.count by decide)
    rw [hscan] at hcomments
    refine hzero ⟨"emjay_substitution2", ?_, by decide +kernel⟩
    rw [Option.some.inj hcomments]
    exact List.mem_cons_self

end SlotMarkup
