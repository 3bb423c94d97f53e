import SlotMarkup.Proofs.DocumentGrammar
import SlotMarkup.Proofs.ParserGoals

/-!
# What comes of parsing a text

The parser reads every list of tokens in the grammar of texts up to the first
misplaced indentation, and refuses that one (`outcome_of_following`). So a text that
can be cut into tokens is parsed unless it has a misplaced indentation
(`Block.parse_of_scan`).
-/

namespace SlotMarkup

/-! ## Cursors -/

namespace Cursor

variable {c : Cursor} {t : Token} {ts : List Token}

/-- The first of the tokens that follow is next. -/
theorem current_of_rest (h : c.rest = t :: ts) : c.current = t := by
  rw [current, h, List.headD_cons]

theorem kind_of_rest (h : c.rest = t :: ts) : c.kind = t.kind := by rw [kind, current_of_rest h]

theorem rest_advance_of_rest (h : c.rest = t :: ts) (ht : t.kind ≠ .eof) : c.advance.rest = ts := by
  have := rest_advance (c := c) (by rwa [kind_of_rest h])
  rw [h] at this
  exact (List.cons.inj this).2.symm

/-- What is not true of the first token is not true of the end of the tokens. -/
theorem kind_ne_of_head {k : Kind} (h : ∀ t ∈ c.rest.head?, t.kind ≠ k) (hk : k ≠ .eof) :
    c.kind ≠ k := by
  cases hr : c.rest with
  | nil =>
    rw [kind, current, hr]
    exact hk.symm
  | cons t ts =>
    rw [kind_of_rest hr]
    exact h t (by rw [hr]; rfl)

end Cursor

/-! ## Heads -/

/-- A list of attributes is read up to the first token that is none. -/
theorem rest_listedAttributes {c : Cursor} {as ts : List Token} {t : Token}
    (has : ∀ a ∈ as, a.kind = .attr) (ht : t.kind ≠ .attr) (hc : c.rest = as ++ t :: ts) :
    (listedAttributes c).2.rest = t :: ts := by
  induction as generalizing c with
  | nil =>
    rw [listedAttributes_end (by rwa [Cursor.kind_of_rest hc])]
    exact hc
  | cons a as ih =>
    have ha := has a List.mem_cons_self
    obtain ⟨name, value, hl⟩ := Lexeme.eq_attr ha
    rw [listedAttributes_attr (Cursor.current_of_rest hc ▸ hl)]
    exact ih (fun b hb => has b (List.mem_cons_of_mem _ hb))
      (Cursor.rest_advance_of_rest hc (by simp [ha]))

/-- No part of a head comes first in these tokens. -/
def NoPart (ts : List Token) : Prop :=
  ∀ t ∈ ts.head?, t.kind ≠ .idShorthand ∧ t.kind ≠ .classShorthand ∧ t.kind ≠ .openAttributes

/-- A run of shorthands and lists is read to its end. -/
theorem attributeRun_of_parts {ps ts : List Token} (h : IsParts ps) (hts : NoPart ts) {c : Cursor}
    (hc : c.rest = ps ++ ts) : ∃ as d, attributeRun c = .ok (as, d) ∧ d.rest = ts := by
  induction h generalizing c with
  | nil =>
    rw [List.nil_append] at hc
    refine ⟨[], c, attributeRun_end ⟨?_, ?_, ?_⟩, hc⟩
    · exact c.kind_ne_of_head (hc ▸ fun t ht => (hts t ht).1) (by decide)
    · exact c.kind_ne_of_head (hc ▸ fun t ht => (hts t ht).2.1) (by decide)
    · exact c.kind_ne_of_head (hc ▸ fun t ht => (hts t ht).2.2) (by decide)
  | shorthand ht _ ih =>
    rw [List.cons_append] at hc
    have hcur := Cursor.current_of_rest hc
    obtain ⟨as, d, has, hd⟩ :=
      ih (Cursor.rest_advance_of_rest hc (by rcases ht with h | h <;> simp [h]))
    rcases ht with ht | ht
    · obtain ⟨name, hl⟩ := Lexeme.eq_idShorthand ht
      rw [attributeRun_idShorthand (hcur ▸ hl), has]
      exact ⟨_, d, rfl, hd⟩
    · obtain ⟨name, hl⟩ := Lexeme.eq_classShorthand ht
      rw [attributeRun_classShorthand (hcur ▸ hl), has]
      exact ⟨_, d, rfl, hd⟩
  | @list o as cl ps ho has hcl _ ih =>
    rw [List.cons_append, List.append_assoc, List.cons_append] at hc
    have hlex : c.current.lexeme = .openAttributes :=
      Cursor.current_of_rest hc ▸ Lexeme.eq_of_kind ho rfl
    have hadv := Cursor.rest_advance_of_rest hc (by simp [ho])
    have hlist := rest_listedAttributes has (by simp [hcl]) hadv
    have hexpect : (listedAttributes c.advance).2.expect .closeAttributes =
        .ok (listedAttributes c.advance).2.advance := by
      rw [Cursor.expect, Cursor.kind_of_rest hlist, if_pos hcl]
    obtain ⟨bs, d, hbs, hd⟩ := ih (Cursor.rest_advance_of_rest hlist (by simp [hcl]))
    rw [attributeRun_list hlex, hexpect, Except.bind, hbs]
    exact ⟨_, d, rfl, hd⟩

/-- A head is read to its end. -/
theorem readHead_of_head {hs ts : List Token} (h : IsHead hs) (hts : NoPart ts) {c : Cursor}
    (hc : c.rest = hs ++ ts) : ∃ head d, readHead c = .ok (head, d) ∧ d.rest = ts := by
  obtain @⟨t, ps, ht, more⟩ := h
  have hcur := Cursor.current_of_rest hc
  rw [readHead]
  split
  · rename_i name hl
    have hadv := Cursor.rest_advance_of_rest hc (by
      rw [Token.kind, ← hcur, hl]
      simp [Lexeme.kind])
    obtain ⟨as, d, has, hd⟩ := attributeRun_of_parts more hts hadv
    exact ⟨_, d, by rw [has]; rfl, hd⟩
  · rename_i hl
    rw [hcur] at hl
    rcases ht with ⟨name, hname, -⟩ | ht
    · exact absurd hname (hl name)
    · obtain ⟨as, d, has, hd⟩ := attributeRun_of_parts (.shorthand ht more) hts hc
      exact ⟨_, d, by rw [has]; rfl, hd⟩

/-! ## Bodies -/

/-- A text block is read to its end. -/
theorem textBlockItems_of_block {bs ts : List Token} {cl : Token}
    (hbs : ∀ t ∈ bs, t.kind = .text ∨ t.kind = .newline) (hcl : cl.kind = .closeTextBlock)
    {c : Cursor} (hc : c.rest = bs ++ cl :: ts) :
    ∃ is d, textBlockItems c = .ok (is, d) ∧ d.rest = ts := by
  induction bs generalizing c with
  | nil =>
    have hlex : c.current.lexeme = .closeTextBlock :=
      Cursor.current_of_rest hc ▸ Lexeme.eq_of_kind hcl rfl
    rw [textBlockItems_close hlex]
    exact ⟨[], c.advance, rfl, Cursor.rest_advance_of_rest hc (by simp [hcl])⟩
  | cons b bs ih =>
    have hb := hbs b List.mem_cons_self
    have hcur := Cursor.current_of_rest hc
    obtain ⟨is, d, his, hd⟩ := ih (fun t ht => hbs t (List.mem_cons_of_mem _ ht))
      (Cursor.rest_advance_of_rest hc (by rcases hb with h | h <;> simp [h]))
    rcases hb with hb | hb
    · obtain ⟨value, hl⟩ := Lexeme.eq_text hb
      rw [textBlockItems_text (hcur ▸ hl), his]
      exact ⟨_, d, rfl, hd⟩
    · rw [textBlockItems_newline (hcur ▸ Lexeme.eq_of_kind hb rfl), his]
      exact ⟨_, d, rfl, hd⟩

/-- No tag goes on with these tokens on its line. -/
def EndsTag (ts : List Token) : Prop :=
  ∀ t ∈ ts.head?, t.kind = .newline ∨ t.kind = .outdent ∨ t.kind = .eof ∨ t.kind = .indent

/-- What is in a tag on its own line is read to its end. -/
theorem readInline_of_body {bs ts : List Token} (h : IsBody bs) (hts : EndsTag ts) {c : Cursor}
    (hc : c.rest = bs ++ ts) : ∃ is d, Goal.inline.read c = .ok (is, d) ∧ d.rest = ts := by
  cases h with
  | nil =>
    rw [List.nil_append] at hc
    refine ⟨[], c, Goal.read_inline_none fun k hk => ?_, hc⟩
    refine c.kind_ne_of_head (fun t ht => ?_) (by rintro rfl; simp at hk)
    rw [hc] at ht
    rintro rfl
    rcases hts t ht with h | h | h | h <;> simp [h] at hk
  | @text t ht =>
    have hcur := Cursor.current_of_rest hc
    obtain ⟨value, hl⟩ := Lexeme.eq_text ht
    exact ⟨_, _, Goal.read_inline_text (hcur ▸ hl), Cursor.rest_advance_of_rest hc (by simp [ht])⟩
  | @block o bs cl ho hbs hcl =>
    rw [List.cons_append, List.append_assoc] at hc
    have hcur := Cursor.current_of_rest hc
    have hlex : c.current.lexeme = .openTextBlock := hcur ▸ Lexeme.eq_of_kind ho rfl
    obtain ⟨is, d, his, hd⟩ := textBlockItems_of_block hbs hcl
      (Cursor.rest_advance_of_rest hc (by simp [ho]))
    exact ⟨is, d, by rw [Goal.read_inline_block hlex, his], hd⟩

/-- Neither a body nor what ends a tag goes on with its head. -/
theorem IsBody.noPart {bs ts : List Token} (h : IsBody bs) (hts : EndsTag ts) :
    NoPart (bs ++ ts) := by
  cases h with
  | nil =>
    intro t ht
    rcases hts t ht with h | h | h | h <;> simp [h]
  | text ht =>
    rintro t ⟨rfl⟩
    simp [ht]
  | block ho _ _ =>
    rintro t ⟨rfl⟩
    simp [ho]

/-- Where a head stands, a tag starts. -/
theorem IsHead.startsTag {hs ts : List Token} (h : IsHead hs) {c : Cursor}
    (hc : c.rest = hs ++ ts) :
    c.kind.startsTag = true := by
  obtain ⟨ht, -⟩ := h
  rw [Cursor.kind_of_rest hc]
  exact ht.kind

/-- The parser reads a chain of tags, and below it whatever can be read there. -/
theorem readTag_of_chain {cs ts : List Token} (h : IsChain cs) (hts : EndsTag ts) {c : Cursor}
    (hc : c.rest = cs ++ ts) : ∃ d, d.rest = ts ∧
      (∀ e, Goal.nested.read d = .error e → Goal.tag.read c = .error e) ∧
      (∀ js f, Goal.nested.read d = .ok (js, f) → f.kind ≠ .indent →
        ∃ is, Goal.tag.read c = .ok (is, f)) := by
  induction h generalizing c with
  | last hh hb =>
    rw [List.append_assoc] at hc
    obtain ⟨head, b, hhead, hbr⟩ := readHead_of_head hh (hb.noPart hts) hc
    obtain ⟨is, d, hi, hd⟩ := readInline_of_body hb hts hbr
    have hread := Goal.read_tag (hh.startsTag hc)
    rw [hhead] at hread
    simp only [Except.bind, hi] at hread
    refine ⟨d, hd, fun e he => ?_, fun js f hf _ => ?_⟩
    · rw [hread, he]
      rfl
    · rw [hread, hf]
      exact ⟨_, rfl⟩
  | @colon hs cl cs hh hcl hchain ih =>
    rw [List.append_assoc, List.cons_append] at hc
    have hpart : NoPart (cl :: (cs ++ ts)) := by
      rintro t ⟨rfl⟩
      simp [hcl]
    obtain ⟨head, b, hhead, hbr⟩ := readHead_of_head hh hpart hc
    have hlex : b.current.lexeme = .colon :=
      Cursor.current_of_rest hbr ▸ Lexeme.eq_of_kind hcl rfl
    have hbr' := Cursor.rest_advance_of_rest hbr (by simp [hcl])
    have hstart : b.advance.kind.startsTag = true := by
      cases hchain with
      | last hh hb => exact hh.startsTag (hbr'.trans (List.append_assoc _ _ _))
      | colon hh _ _ => exact hh.startsTag (hbr'.trans (List.append_assoc _ _ _))
    obtain ⟨d, hd, herr, hok⟩ := ih hbr'
    have hread := Goal.read_tag (hh.startsTag hc)
    rw [hhead] at hread
    simp only [Except.bind, Goal.read_inline_colon hlex, if_pos hstart] at hread
    refine ⟨d, hd, fun e he => ?_, fun js f hf hk => ?_⟩
    · rw [hread, herr e he]
    · obtain ⟨is, his⟩ := hok js f hf hk
      rw [hread, his]
      simp only [Goal.read_nested_none hk]
      exact ⟨_, rfl⟩

/-! ## Runs of items -/

/-- The kind of token that ends the items at a depth of nesting. -/
def stopKind : Nat → Kind
  | 0 => .eof
  | _ + 1 => .outdent

/-- The tokens left after the items at a depth of nesting. -/
inductive Stops : Nat → List Token → Option Span → Prop
  | eof {t} (h : t.kind = .eof) : Stops 0 [t] none
  | outdent {d t ts m} (h : t.kind = .outdent) (more : Following d ts m) : Stops (d + 1) (t :: ts) m

/-- Either the items up to a stop are read, or the first misplaced indentation is
    refused. -/
def Outcome (d : Nat) (m : Option Span) (r : Except ParseError (List Item × Cursor)) : Prop :=
  (∃ is e, r = .ok (is, e) ∧ Stops d e.rest m) ∨
    ∃ s, m = some s ∧ r = .error (.unexpectedIndent s)

/-- Items in front of others are read with them, or nothing is. -/
theorem Outcome.before {d : Nat} {m : Option Span} {r : Except ParseError (List Item × Cursor)}
    (h : Outcome d m r) (is : List Item) : Outcome d m (before is r) := by
  rcases h with ⟨js, e, rfl, he⟩ | ⟨s, hm, rfl⟩
  · exact .inl ⟨is ++ js, e, rfl, he⟩
  · exact .inr ⟨s, hm, rfl⟩

/-- A chain of tags starts with the start of a tag. -/
theorem IsChain.head_kind {cs : List Token} (h : IsChain cs) (ts : List Token) :
    ∃ t ∈ (cs ++ ts).head?, t.kind.startsTag = true := by
  cases h with
  | last hh _ =>
    obtain ⟨ht, -⟩ := hh
    exact ⟨_, rfl, ht.kind⟩
  | colon hh _ _ =>
    obtain ⟨ht, -⟩ := hh
    exact ⟨_, rfl, ht.kind⟩

/-- On a level no indentation comes first. -/
theorem Following.head_kind {d : Nat} {ts : List Token} {m : Option Span} (h : Following d ts m) :
    ∀ t ∈ ts.head?, t.kind ≠ .indent := by
  have hchain : ∀ {cs us : List Token}, IsChain cs → ∀ t ∈ (cs ++ us).head?, t.kind ≠ .indent := by
    intro cs us hc t ht
    obtain ⟨u, hu, hk⟩ := hc.head_kind us
    rw [Option.mem_unique ht hu]
    rintro h
    simp [h, Kind.startsTag] at hk
  cases h with
  | chain h | nested h => exact hchain h
  | eof h | outdent h | newline h | comment h | text h | stray h =>
    rintro t ⟨rfl⟩
    simp [h]

/-- An indentation in the place of an item is refused. -/
theorem outcome_of_indent {d : Nat} {i : Token} {ts : List Token} {c : Cursor}
    (hc : c.rest = i :: ts) (hi : i.kind = .indent) (a : Bool) :
    Outcome d (some i.span) ((Goal.items (stopKind d) a).read c) := by
  have hk : c.kind = .indent := (Cursor.kind_of_rest hc).trans hi
  refine .inr ⟨i.span, rfl, ?_⟩
  rw [Goal.read_items_unexpected (by rw [hk]; rfl) (by simp [hk]), Cursor.unexpected, hk,
    Cursor.current_of_rest hc]

/-- What ends a line ends a tag. -/
theorem EndsLine.endsTag {ts : List Token} (h : EndsLine ts) : EndsTag ts := fun t ht => by
  rcases h t ht with h | h | h <;> simp [h]

/-- After the items nested below a tag, the tokens go on at the tag's own depth. -/
theorem nested_of_outcome {d : Nat} {m : Option Span} {c : Cursor} {i : Token} {ts : List Token}
    (hc : c.rest = i :: ts) (hi : i.kind = .indent)
    (h : Outcome (d + 1) m ((Goal.items .outdent false).read c.advance)) :
    (∃ is e, Goal.nested.read c = .ok (is, e) ∧ e.rest.length ≤ ts.length ∧
        Following d e.rest m) ∨
      ∃ s, m = some s ∧ Goal.nested.read c = .error (.unexpectedIndent s) := by
  rw [Goal.read_nested_indent ((Cursor.kind_of_rest hc).trans hi)]
  rcases h with ⟨is, e, he, hstop⟩ | ⟨s, hm, hs⟩
  · have hle := Goal.read_le he
    rw [Cursor.rest_advance_of_rest hc (by simp [hi])] at hle
    generalize hr : e.rest = us at hstop hle
    cases hstop with
    | outdent ht more =>
      have hadv := Cursor.rest_advance_of_rest hr (by simp [ht])
      refine .inl ⟨[.block (nestedBlock c.current.span is)], e.advance, ?_, ?_, hadv ▸ more⟩
      · simp only [he, Except.bind, Cursor.expect, Cursor.kind_of_rest hr, ht, if_true]
        rfl
      · rw [hadv]
        exact Nat.le_of_succ_le hle
  · exact .inr ⟨s, hm, by rw [hs]; rfl⟩

/-- The parser reads the items at a depth of nesting, whatever was before them. -/
theorem outcome_of_following {d : Nat} {ts : List Token} {m : Option Span} (h : Following d ts m)
    {c : Cursor} (hc : c.rest = ts) (a : Bool) :
    Outcome d m ((Goal.items (stopKind d) a).read c) := by
  -- By the length of the tokens: those after a nested run are no part of its derivation.
  induction hn : ts.length using Nat.strongRecOn generalizing d ts m c a with
  | ind n ih =>
    subst hn
    cases h with
    | eof ht =>
      have hcur := Cursor.current_of_rest hc
      refine .inl ⟨[], c, ?_, hc ▸ .eof ht⟩
      rw [Goal.read_items_stop (.inl (hcur ▸ Lexeme.eq_of_kind ht rfl)), stopKind,
        if_pos ((Cursor.kind_of_rest hc).trans ht)]
    | outdent ht more =>
      have hcur := Cursor.current_of_rest hc
      refine .inl ⟨[], c, ?_, hc ▸ .outdent ht more⟩
      rw [Goal.read_items_stop (.inr (hcur ▸ Lexeme.eq_of_kind ht rfl)), stopKind,
        if_pos ((Cursor.kind_of_rest hc).trans ht)]
    | newline ht more =>
      have hcur := Cursor.current_of_rest hc
      rw [Goal.read_items_newline (hcur ▸ Lexeme.eq_of_kind ht rfl)]
      exact ih _ (by simp) more (Cursor.rest_advance_of_rest hc (by simp [ht])) a rfl
    | comment ht more =>
      obtain ⟨value, buffered, hl⟩ := Lexeme.eq_comment ht
      have hadv := Cursor.rest_advance_of_rest hc (by simp [ht])
      rw [Goal.read_items_comment (Cursor.current_of_rest hc ▸ hl)]
      exact (ih _ (by simp) more hadv false rfl).before _
    | text ht more =>
      obtain ⟨value, hl⟩ := Lexeme.eq_text ht
      have hadv := Cursor.rest_advance_of_rest hc (by simp [ht])
      rw [Goal.read_items_text (Cursor.current_of_rest hc ▸ hl)]
      exact (ih _ (by simp) more hadv true rfl).before _
    | stray ht hi =>
      obtain ⟨value, hl⟩ := Lexeme.eq_text ht
      have hadv := Cursor.rest_advance_of_rest hc (by simp [ht])
      rw [Goal.read_items_text (Cursor.current_of_rest hc ▸ hl)]
      exact (outcome_of_indent hadv hi true).before _
    | @chain _ cs us _ hchain hts more =>
      -- Nothing is nested below the chain: after it, the items go on.
      obtain ⟨e, he, -, hok⟩ := readTag_of_chain hchain hts.endsTag hc
      have hk := e.kind_ne_of_head (he ▸ more.head_kind) (by decide)
      obtain ⟨is, htag⟩ := hok [] e (Goal.read_nested_none hk) hk
      rw [Goal.read_items_tag (Goal.startsTag_of_read_tag htag), htag]
      refine (ih _ ?_ more he false rfl).before is
      have := List.length_pos_iff.2 hchain.ne_nil
      rw [List.length_append]
      omega
    | @nested _ cs i us _ hchain hi more =>
      obtain ⟨e, he, herr, hok⟩ := readTag_of_chain hchain (by rintro t ⟨rfl⟩; simp [hi]) hc
      have hstart : c.kind.startsTag = true := by
        obtain ⟨t, ht, hk⟩ := hchain.head_kind (i :: us)
        obtain ⟨vs, hvs⟩ := List.head?_eq_some_iff.1 ht
        rwa [Cursor.kind_of_rest (hc.trans hvs)]
      have hadv := Cursor.rest_advance_of_rest he (by simp [hi])
      have hlen : us.length < (cs ++ i :: us).length := by
        rw [List.length_append, List.length_cons]
        omega
      rw [Goal.read_items_tag hstart]
      -- Below the chain is one more depth; what is misplaced there stops the tag as well.
      rcases nested_of_outcome he hi (ih _ hlen more hadv false rfl) with
        ⟨is, f, hf, hfle, more'⟩ | ⟨s, hm, hs⟩
      · obtain ⟨js, htag⟩ := hok _ _ hf (f.kind_ne_of_head more'.head_kind (by decide))
        rw [htag]
        exact (ih _ (Nat.lt_of_le_of_lt hfle hlen) more' rfl false rfl).before js
      · exact .inr ⟨s, hm, by rw [herr _ hs]; rfl⟩

/-! ## Texts -/

/-- From the start of a text everything is read, or the first misplaced indentation is refused. -/
theorem outcome_of_after {ts : List Token} {m : Option Span} (h : After .start 0 ts m) {c : Cursor}
    (hc : c.rest = ts) : Outcome 0 m ((Goal.items .eof false).read c) := by
  cases h with
  | line _ more => exact outcome_of_following more hc false
  | nested hb => simp at hb
  | stray _ hi => exact outcome_of_indent hc hi false

/-- A template is what is read up to its end. -/
theorem Block.ofTokens_eq (tokens : List Token) : Block.ofTokens tokens =
    ((Goal.items .eof false).read (.ofTokens tokens)).map fun (items, d) =>
      Block.ofItems items d.current.span := by
  rw [Block.ofTokens, Goal.read]
  cases readItems .eof false (.ofTokens tokens) <;> rfl

/-- The outcome of reading the tokens of a text. -/
theorem outcome_of_scan {text : String} {tokens : List Token} (h : Token.scan text = .ok tokens) :
    ∃ marked, Token.scanMarked text = .ok marked ∧ tokens = marked.map Marked.token ∧
      Outcome 0 ((misplaced true marked).head?.map Token.span)
        ((Goal.items .eof false).read (.ofTokens tokens)) := by
  rw [scan_eq_marked] at h
  obtain ⟨marked, hm, rfl⟩ := map_eq_ok_iff.1 h
  exact ⟨marked, hm, rfl, outcome_of_after (after_of_scanMarked hm) rfl⟩

/-- Where no indentation is misplaced, only a tag can have lines nested below it. -/
theorem After.following {b : Before} {d : Nat} {ts : List Token} (h : After b d ts none)
    (hb : b ≠ .tag) : Following d ts none := by
  generalize hm : none = m at h ⊢
  cases h with
  | line _ more => exact more
  | nested ht => exact absurd ht hb
  | stray => simp at hm

/-- If all items of a text are read, no indentation is misplaced, and only the end is
    left. -/
theorem following_of_read {text : String} {tokens : List Token} {items : List Item} {e : Cursor}
    (h : Token.scan text = .ok tokens)
    (hread : (Goal.items .eof false).read (.ofTokens tokens) = .ok (items, e)) :
    Following 0 tokens none ∧ ∃ t, e.rest = [t] ∧ t.kind = .eof := by
  rw [scan_eq_marked] at h
  obtain ⟨marked, hm, rfl⟩ := map_eq_ok_iff.1 h
  have hafter := after_of_scanMarked hm
  have hout := outcome_of_after hafter (c := .ofTokens _) rfl
  generalize (misplaced true marked).head?.map Token.span = m at hafter hout
  rcases hout with ⟨js, f, hf, hstop⟩ | ⟨s, -, he⟩
  · obtain ⟨rfl, rfl⟩ := Prod.mk.inj (Except.ok.inj (hread.symm.trans hf))
    generalize hr : e.rest = ts at hstop
    cases hstop with
    | eof ht => exact ⟨hafter.following (by simp), _, rfl, ht⟩
  · simp [hread] at he

/-- A text that can be cut into tokens is parsed, unless an indentation comes first
    or right after a line of text. Then the first such indentation is refused. -/
theorem Block.parse_of_scan {text : String} {tokens : List Token}
    (h : Token.scan text = .ok tokens) :
    ∃ marked, Token.scanMarked text = .ok marked ∧ tokens = marked.map Marked.token ∧
      match (misplaced true marked).head? with
      | none => ∃ block, Block.parse text = .ok block
      | some indent => Block.parse text = .error (.unexpectedIndent indent.span) := by
  obtain ⟨marked, hm, rfl, hout⟩ := outcome_of_scan h
  refine ⟨marked, hm, rfl, ?_⟩
  rw [Block.parse, h]
  simp only [Block.ofTokens_eq]
  cases hi : (misplaced true marked).head? with
  | none =>
    rw [hi] at hout
    rcases hout with ⟨items, e, he, -⟩ | ⟨s, hs, -⟩
    · exact ⟨_, by rw [he]; rfl⟩
    · simp at hs
  | some indent =>
    rw [hi] at hout
    rcases hout with ⟨items, e, he, hstop⟩ | ⟨s, hs, he⟩
    · -- All tokens are read only if no indentation is misplaced.
      generalize e.rest = ts at hstop
      cases hstop
    · obtain rfl := Option.some.inj hs
      rw [he]
      rfl

theorem ok_of_toOption {ε α : Type} {e : Except ε α} {a : α} (h : e.toOption = some a) :
    e = .ok a := by
  cases e with
  | error e => simp [Except.toOption] at h
  | ok b => rw [Option.some.inj h]

/-- The second line may be indented, as it is below a tag, the third may not, and the
    text of the first line makes no difference. -/
theorem Block.parse_of_scan_below_text :
    (∃ tokens, Token.scan "p a\n  | b\n    q c\n  < d\n   // e" = .ok tokens) ∧
      Block.parse "p a\n  | b\n    q c\n  < d\n   // e" = .error (.unexpectedIndent ⟨14, 14⟩) := by
  have hscan : (Token.scan "p a\n  | b\n    q c\n  < d\n   // e").toOption.isSome = true := by
    decide +kernel
  obtain ⟨tokens, htokens⟩ := Option.isSome_iff_exists.1 hscan
  refine ⟨⟨tokens, ok_of_toOption htokens⟩, ?_⟩
  obtain ⟨marked, hm, -, hout⟩ := Block.parse_of_scan (ok_of_toOption htokens)
  have hfirst : (Token.scanMarked "p a\n  | b\n    q c\n  < d\n   // e").toOption.map
      (fun ms => (misplaced true ms).head?) = some (some ⟨.indent, ⟨14, 14⟩⟩) := by
    decide +kernel
  rw [hm, Except.toOption, Option.map_some, Option.some.injEq] at hfirst
  rw [hfirst] at hout
  exact hout

end SlotMarkup
