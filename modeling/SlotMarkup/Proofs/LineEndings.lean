import SlotMarkup.Proofs.CrlfScan
import SlotMarkup.Proofs.RelabeledTrees

/-!
# Line endings

A template may be written with a carriage return before every line feed. It is compiled if
and only if it is compiled with line feeds alone, to a tree that differs only by carriage
returns in the names and the values of attributes, and else refused with the same error at
another place (`compile_crlf`).
-/

namespace SlotMarkup

/-- An error without the place where it was found. -/
def ParseError.unplaced : ParseError → ParseError
  | scan e => scan ⟨e.cause, .nowhere⟩
  | unexpectedToken found wanted _ => unexpectedToken found wanted .nowhere
  | unexpectedIndent _ => unexpectedIndent .nowhere
  | unexpectedEof _ => unexpectedEof .nowhere

/-- The tokens of a text are refused for an indentation only. -/
theorem unexpectedIndent_of_scan {text : String} {tokens : List Token} {e : ParseError}
    (hscan : Token.scan text = .ok tokens) (h : Block.ofTokens tokens = .error e) :
    ∃ s, e = .unexpectedIndent s := by
  obtain ⟨marked, _, _, hout⟩ := outcome_of_scan hscan
  rw [Block.ofTokens_eq] at h
  rcases hout with ⟨is, d, hd, -⟩ | ⟨s, -, hs⟩
  · simp [hd, Except.map] at h
  · rw [hs] at h
    exact ⟨s, (Except.error.inj h).symm⟩

/-- Texts that differ in carriage returns before line feeds are both parsed, or both refused
    with the same error. -/
theorem parse_crlf {text text' : String} (htext : text'.toList = crlf text.toList)
    (hclean : '\r' ∉ text.toList) :
    (∃ block block', Block.parse text = .ok block ∧ Block.parse text' = .ok block' ∧
      block'.toValue = block.toValue.relabel crlf) ∨
    ∃ e e', Block.parse text = .error e ∧ Block.parse text' = .error e' ∧
      e'.unplaced = e.unplaced := by
  have halike := scan_crlf htext hclean
  rw [Block.parse, Block.parse]
  generalize hscan : Token.scan text = r at halike ⊢
  generalize hscan' : Token.scan text' = r' at halike ⊢
  cases halike with
  | error hcause => exact .inr ⟨_, _, rfl, rfl, by rw [ParseError.unplaced, hcause]; rfl⟩
  | @ok ts us hrelabels =>
    dsimp only
    cases hparse : Block.ofTokens ts with
    | ok block =>
      obtain ⟨block', hparse', hsame⟩ := ofTokens_crlf hrelabels hparse
      exact .inl ⟨block, block', rfl, hparse', toValue_relabel_crlf
        (blockHeads_name_ne hscan hparse) (blockHeads_name_ne hscan' hparse') hsame⟩
    | error e =>
      -- What is not parsed without the carriage returns is not parsed with them.
      cases hparse' : Block.ofTokens us with
      | ok block' =>
        obtain ⟨block, hblock⟩ := ofTokens_of_kinds hrelabels.kinds.symm hparse'
        simp [hparse] at hblock
      | error e' =>
        obtain ⟨s, rfl⟩ := unexpectedIndent_of_scan hscan hparse
        obtain ⟨s', rfl⟩ := unexpectedIndent_of_scan hscan' hparse'
        exact .inr ⟨_, _, rfl, rfl, rfl⟩

namespace Template

/-- A template whose fragments have a carriage return before every line feed is compiled if
    and only if it is compiled without them. If it is not, the errors are the same up to their
    places; if it is, there are as many slots, and the trees are the same up to the carriage
    returns in the names and the values of attributes and in keys. -/
theorem compile_crlf {fragments : List String} (hclean : ∀ f ∈ fragments, '\r' ∉ f.toList) :
    ((∃ t', compile (fragments.map (reword crlf)) = .ok t') ↔
      ∃ t, compile fragments = .ok t) ∧
    (∀ e e', compile fragments = .error e → compile (fragments.map (reword crlf)) = .error e' →
      e'.unplaced = e.unplaced) ∧
    (∀ t t', compile fragments = .ok t → compile (fragments.map (reword crlf)) = .ok t' →
      t'.slotCount = t.slotCount ∧ t'.tree.dropReturns = t.tree.dropReturns) := by
  have hslots : Slots.ofFragments (fragments.map (reword crlf)) = Slots.ofFragments fragments := by
    rw [Slots.ofFragments, Slots.ofFragments, List.length_map]
  generalize hs : Slots.ofFragments fragments = s at hslots
  -- The texts differ in carriage returns only, also when they are dedented.
  have htext : (dedent (s.encode (fragments.map (reword crlf)))).toList =
      crlf (dedent (s.encode fragments)).toList := by
    rw [dedent, dedent, String.toList_ofList, String.toList_ofList, Slots.encode, Slots.encode,
      String.toList_ofList, String.toList_ofList, s.encodeFrom_crlf, dedentChars_crlf]
  have hreturns : '\r' ∉ (dedent (s.encode fragments)).toList := by
    rw [dedent, String.toList_ofList, Slots.encode, String.toList_ofList]
    exact not_mem_dedentChars (s.not_mem_encodeFrom hclean 0)
  simp only [compile, hslots, hs]
  rcases parse_crlf htext hreturns with ⟨block, block', hb, hb', htree⟩ | ⟨e, e', he, he', hsame⟩
  · rw [hb, hb']
    refine ⟨⟨fun _ => ⟨_, rfl⟩, fun _ => ⟨_, rfl⟩⟩, by simp [Except.map], ?_⟩
    rintro t t' ht ht'
    obtain rfl := Except.ok.inj ht
    obtain rfl := Except.ok.inj ht'
    split
    · exact ⟨rfl, by rw [tree, tree, htree, dropReturns_relabel]⟩
    · exact ⟨rfl, by rw [tree, tree, htree, dropReturns_relabel]⟩
  · rw [he, he']
    refine ⟨by simp [Except.map], ?_, by simp [Except.map]⟩
    rintro f f' hf hf'
    obtain rfl := Except.error.inj hf
    obtain rfl := Except.error.inj hf'
    exact hsame

/-- Line feeds in the name and in the value of an attribute, between attributes, in a comment
    and in a text block. -/
theorem compile_crlf_everywhere :
    let fragments := ["p('a\nb'='c\\\nd'\n  e=", "\n)\n  // f\n    g\n  q.\n    h\n\n    i", "\n"]
    (∀ f ∈ fragments, '\r' ∉ f.toList) ∧ ∃ t t', compile fragments = .ok t ∧
      compile (fragments.map (reword crlf)) = .ok t' ∧ t'.slotCount = t.slotCount ∧
      t'.tree.dropReturns = t.tree.dropReturns := by
  intro fragments
  have hclean : ∀ f ∈ fragments, '\r' ∉ f.toList := by
    intro f hf
    revert f
    decide
  have hcompile : (compile fragments).toOption.isSome = true := by decide +kernel
  obtain ⟨t, ht⟩ := Option.isSome_iff_exists.1 hcompile
  have ht := ok_of_toOption ht
  obtain ⟨hiff, -, hsame⟩ := compile_crlf hclean
  obtain ⟨t', ht'⟩ := hiff.2 ⟨t, ht⟩
  exact ⟨hclean, t, t', ht, ht', hsame t t' ht ht'⟩

end Template

end SlotMarkup
