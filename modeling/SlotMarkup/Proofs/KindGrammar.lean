import SlotMarkup.Proofs.ParseOutcome

/-!
# The grammar of markup

What a list of tokens has to be for the parser to accept it is a matter of the kinds
of its tokens alone. They have to form a document (`Derives`):

    document = item*
    item     = newline | text | comment | tag
    tag      = (name | shorthand) part* body? nested?
    part     = shorthand | `(` attribute* `)`
    body     = `:` tag | text block | text
    nested   = indent item* outdent

The grammar is ambiguous. A text after a head can be the body of the tag or an item of
its own, a shorthand can go on with the head or start the next tag, and what is nested
below a chain of tags can be in any of them.

* `Reads.derives`: what the parser reads is in the grammar.
-/

namespace SlotMarkup

/-! ## The grammar -/

/-- A run of shorthands and attribute lists. -/
inductive PartKinds : List Kind → Prop
  | nil : PartKinds []
  | shorthand {k ks} (h : k = .idShorthand ∨ k = .classShorthand) (more : PartKinds ks) :
      PartKinds (k :: ks)
  | list {ks} (n : Nat) (more : PartKinds ks) :
      PartKinds (.openAttributes :: (List.replicate n .attr ++ .closeAttributes :: ks))

/-- What a grammar of markup speaks of. -/
inductive Phrase
  | items
  | item
  | tag
  /-- What is in a tag on its own line, possibly nothing. -/
  | body
  /-- The items nested below the line of a tag, if there are any. -/
  | nested

/-- The kinds of tokens that form a phrase. -/
inductive Derives : Phrase → List Kind → Prop
  | noItems : Derives .items []
  | items {ks ls} (first : Derives .item ks) (more : Derives .items ls) : Derives .items (ks ++ ls)
  | newline : Derives .item [.newline]
  | text : Derives .item [.text]
  | comment : Derives .item [.comment]
  | tagItem {ks} (tag : Derives .tag ks) : Derives .item ks
  | tag {k ps bs ns} (h : k.startsTag = true) (parts : PartKinds ps) (body : Derives .body bs)
      (nested : Derives .nested ns) : Derives .tag (k :: (ps ++ (bs ++ ns)))
  | noBody : Derives .body []
  | colon {ks} (only : Derives .tag ks) : Derives .body (.colon :: ks)
  | block {ks} (h : ∀ k ∈ ks, k = .text ∨ k = .newline) :
      Derives .body (.openTextBlock :: (ks ++ [.closeTextBlock]))
  | bodyText : Derives .body [.text]
  | noNested : Derives .nested []
  | nested {ks} (below : Derives .items ks) : Derives .nested (.indent :: (ks ++ [.outdent]))

/-- The kinds of some tokens up to the end of the template. -/
def kindsBeforeEof (ts : List Token) : List Kind := (ts.map Token.kind).takeWhile (· != .eof)

namespace Cursor

/-- The kinds of the tokens from a cursor up to the end of the template. -/
def kinds (c : Cursor) : List Kind := kindsBeforeEof c.rest

variable {c : Cursor}

/-- Nothing is left at the end of the template. -/
theorem kinds_of_eof (h : c.kind = .eof) : c.kinds = [] := by
  match c, h with
  | ⟨_, []⟩, _ => rfl
  | ⟨_, t :: ts⟩, h =>
    have ht : t.kind = .eof := h
    simp [kinds, kindsBeforeEof, ht]

/-- Before the end, the next kind comes first. -/
theorem kinds_eq_cons (h : c.kind ≠ .eof) : c.kinds = c.kind :: c.advance.kinds := by
  have hk : (c.current.kind != .eof) = true := by simpa [kind] using h
  rw [kinds, kindsBeforeEof, rest_advance h, List.map_cons, List.takeWhile_cons, if_pos hk]
  rfl

/-- A kind with which no cursor is at the end. -/
theorem kinds_of_kind {k : Kind} (h : c.kind = k) (hk : k ≠ .eof) :
    c.kinds = k :: c.advance.kinds := by
  rw [kinds_eq_cons (h ▸ hk), h]

theorem kinds_of_lexeme {l : Lexeme} (h : c.current.lexeme = l) (hl : l.kind ≠ .eof) :
    c.kinds = l.kind :: c.advance.kinds :=
  kinds_of_kind (by rw [kind, Token.kind, h]) hl

/-- If a kind comes first, a token of this kind is next. -/
theorem kind_of_kinds {k : Kind} {ks : List Kind} (h : c.kinds = k :: ks) :
    c.kind = k ∧ k ≠ .eof ∧ c.advance.kinds = ks := by
  by_cases hc : c.kind = .eof
  · simp [kinds_of_eof hc] at h
  · rw [kinds_eq_cons hc] at h
    obtain ⟨rfl, rfl⟩ := List.cons.inj h
    exact ⟨rfl, hc, rfl⟩

/-- If no kind is left, the template ends here. -/
theorem kind_of_kinds_nil (h : c.kinds = []) : c.kind = .eof := by
  by_cases hc : c.kind = .eof
  · exact hc
  · simp [kinds_eq_cons hc] at h

end Cursor

/-! ## What is read is in the grammar -/

/-- What is read of a list are attributes alone. -/
theorem listedAttributes_kinds (c : Cursor) :
    ∃ n, c.kinds = List.replicate n .attr ++ (listedAttributes c).2.kinds := by
  fun_induction listedAttributes c with
  | case1 c name value hl attrs d h ih =>
    rw [h] at ih
    obtain ⟨n, hn⟩ := ih
    exact ⟨n + 1, by rw [Cursor.kinds_of_lexeme hl (by simp [Lexeme.kind]), hn]; rfl⟩
  | case2 c => exact ⟨0, rfl⟩

/-- What is read of a head are shorthands and lists. -/
theorem attributeRun_kinds {c d : Cursor} {attrs : List Attribute}
    (h : attributeRun c = .ok (attrs, d)) : ∃ ks, PartKinds ks ∧ c.kinds = ks ++ d.kinds := by
  fun_induction attributeRun c generalizing attrs with
  | case1 c x hl ih =>
    obtain ⟨as, he, -⟩ := map_fst_eq_ok_iff.1 h
    obtain ⟨ks, hks, hc⟩ := ih he
    refine ⟨_ :: ks, .shorthand (.inl rfl) hks, ?_⟩
    rw [Cursor.kinds_of_lexeme hl (by simp [Lexeme.kind]), hc]
    rfl
  | case2 c x hl ih =>
    obtain ⟨as, he, -⟩ := map_fst_eq_ok_iff.1 h
    obtain ⟨ks, hks, hc⟩ := ih he
    refine ⟨_ :: ks, .shorthand (.inr rfl) hks, ?_⟩
    rw [Cursor.kinds_of_lexeme hl (by simp [Lexeme.kind]), hc]
    rfl
  | case3 => simp at h
  | case4 c hl e he ih =>
    obtain ⟨as, hf, -⟩ := map_fst_eq_ok_iff.1 h
    obtain ⟨ks, hks, hc⟩ := ih hf
    obtain ⟨n, hn⟩ := listedAttributes_kinds c.advance
    refine ⟨_, .list n hks, ?_⟩
    rw [Cursor.expect] at he
    split at he
    · rename_i hclose
      obtain rfl := Except.ok.inj he
      rw [Cursor.kinds_of_lexeme hl (by simp [Lexeme.kind]), hn,
        Cursor.kinds_of_kind hclose (by decide), hc]
      simp [Lexeme.kind]
    · simp at he
  | case5 =>
    obtain ⟨-, rfl⟩ := Prod.mk.inj (Except.ok.inj h)
    exact ⟨[], .nil, rfl⟩

/-- The head of a tag is its start and a run of parts. -/
theorem readHead_kinds {c d : Cursor} {head : TagHead} (hc : c.kind.startsTag = true)
    (h : readHead c = .ok (head, d)) :
    ∃ ps, PartKinds ps ∧ c.kinds = c.kind :: (ps ++ d.kinds) := by
  obtain ⟨mk, hmk⟩ := readHead_eq_map hc
  obtain ⟨as, has, -⟩ := map_fst_eq_ok_iff.1 (hmk.symm.trans h)
  obtain ⟨ps, hps, hadv⟩ := attributeRun_kinds has
  refine ⟨ps, hps, ?_⟩
  rw [Cursor.kinds_eq_cons (by rintro hk; simp [hk, Kind.startsTag] at hc), hadv]

/-- What is read of a text block are texts and line breaks, up to its end. -/
theorem textBlockItems_kinds {c d : Cursor} {is : List Item}
    (h : textBlockItems c = .ok (is, d)) :
    ∃ ks, (∀ k ∈ ks, k = Kind.text ∨ k = .newline) ∧
      c.kinds = ks ++ .closeTextBlock :: d.kinds := by
  fun_induction textBlockItems c generalizing is with
  | case1 c value hl ih | case2 c hl ih =>
    obtain ⟨js, he, -⟩ := map_fst_eq_ok_iff.1 h
    obtain ⟨ks, hks, hc⟩ := ih he
    refine ⟨_ :: ks, ?_, by rw [Cursor.kinds_of_lexeme hl (by simp [Lexeme.kind]), hc]; rfl⟩
    rintro k hk
    rcases List.mem_cons.1 hk with rfl | hk
    · simp [Lexeme.kind]
    · exact hks k hk
  | case3 c hl =>
    obtain ⟨-, rfl⟩ := Prod.mk.inj (Except.ok.inj h)
    exact ⟨[], by simp, Cursor.kinds_of_lexeme hl (by simp [Lexeme.kind])⟩
  | case4 => simp at h

/-- The phrase that a goal of the parser stands for. -/
def Goal.phrase : Goal → Phrase
  | items _ _ => .items
  | tag => .tag
  | inline => .body
  | nested => .nested

/-- The tokens that are read for a goal form its phrase. -/
theorem Reads.derives {g : Goal} {c d : Cursor} {is : List Item} (h : Reads g c is d) :
    ∃ ks, Derives g.phrase ks ∧ c.kinds = ks ++ d.kinds := by
  induction h with
  | stop => exact ⟨[], .noItems, rfl⟩
  | newline hl _ ih =>
    obtain ⟨ks, hks, hc⟩ := ih
    exact ⟨_, .items .newline hks, by
      rw [Cursor.kinds_of_lexeme hl (by simp [Lexeme.kind]), hc]; rfl⟩
  | text hl _ ih =>
    obtain ⟨ks, hks, hc⟩ := ih
    exact ⟨_, .items .text hks, by
      rw [Cursor.kinds_of_lexeme hl (by simp [Lexeme.kind]), hc]; rfl⟩
  | comment hl _ ih =>
    obtain ⟨ks, hks, hc⟩ := ih
    exact ⟨_, .items .comment hks, by
      rw [Cursor.kinds_of_lexeme hl (by simp [Lexeme.kind]), hc]; rfl⟩
  | child _ _ _ ih ih' =>
    obtain ⟨ks, hks, hc⟩ := ih
    obtain ⟨ls, hls, hd⟩ := ih'
    exact ⟨_, .items (.tagItem hks) hls, by rw [hc, hd, List.append_assoc]⟩
  | tag h hh _ _ ih ih' =>
    obtain ⟨ps, hps, hc⟩ := readHead_kinds h hh
    obtain ⟨bs, hbs, hb⟩ := ih
    obtain ⟨ns, hns, hd⟩ := ih'
    exact ⟨_, .tag h hps hbs hns, by simp [hc, hb, hd]⟩
  | colon hl _ _ ih =>
    obtain ⟨ks, hks, hc⟩ := ih
    exact ⟨_, .colon hks, by rw [Cursor.kinds_of_lexeme hl (by simp [Lexeme.kind]), hc]; rfl⟩
  | block hl lines =>
    obtain ⟨ks, hks, hc⟩ := textBlockItems_kinds lines
    exact ⟨_, .block hks, by
      rw [Cursor.kinds_of_lexeme hl (by simp [Lexeme.kind]), hc]; simp [Lexeme.kind]⟩
  | inlineText hl =>
    exact ⟨_, .bodyText, Cursor.kinds_of_lexeme hl (by simp [Lexeme.kind])⟩
  | noInline => exact ⟨[], .noBody, rfl⟩
  | nested h _ hd ih =>
    obtain ⟨ks, hks, hc⟩ := ih
    exact ⟨_, .nested hks, by
      rw [Cursor.kinds_of_kind h (by decide), hc, Cursor.kinds_of_kind hd (by decide)]; simp⟩
  | noNested => exact ⟨[], .noNested, rfl⟩

/-- The items end at a token of the kind they are read up to. -/
theorem Reads.kind_stop {c d : Cursor} {stop : Kind} {a : Bool} {is : List Item}
    (h : Reads (.items stop a) c is d) : d.kind = stop := by
  generalize hg : Goal.items stop a = g at h
  induction h generalizing a with
  | stop _ hs =>
    obtain ⟨rfl, -⟩ := Goal.items.inj hg
    exact hs
  | newline _ _ ih | text _ _ ih | comment _ _ ih | child _ _ _ _ ih =>
    obtain ⟨rfl, -⟩ := Goal.items.inj hg
    exact ih rfl
  | _ => simp at hg

end SlotMarkup
