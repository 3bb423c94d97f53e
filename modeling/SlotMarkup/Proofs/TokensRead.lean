import SlotMarkup.Proofs.ParseOutcome

/-!
# The tokens that are read

No reader looks behind the end of the template. What it reads at a cursor depends on the tokens up
to the first one of kind `eof` only, and where there is none, on nothing but that
(`Goal.read_trim`). So the tokens behind the end can be left out, and a missing end can be written
out: the same block is parsed, or the same error is found (`Block.ofTokens_upToEof`).
-/

namespace SlotMarkup

/-! ## The end of the template -/

/-- The tokens up to the end of the template, which is written out if it is missing. -/
def upToEof : List Token → List Token
  | [] => [⟨.eof, .nowhere⟩]
  | t :: ts => if t.kind = .eof then [t] else t :: upToEof ts

/-- Cutting off takes nothing from tokens before the end. -/
theorem upToEof_append {before : List Token} (h : ∀ t ∈ before, t.kind ≠ .eof)
    (ts : List Token) : upToEof (before ++ ts) = before ++ upToEof ts := by
  induction before with
  | nil => rfl
  | cons t before ih =>
    rw [List.cons_append, upToEof, if_neg (h t List.mem_cons_self),
      ih fun t ht => h t (List.mem_cons_of_mem _ ht), List.cons_append]

theorem upToEof_cons_of_eof {e : Token} (h : e.kind = .eof) (after : List Token) :
    upToEof (e :: after) = [e] := if_pos h

namespace Cursor

variable {c : Cursor} {k : Kind}

/-- The same point in a list that ends with the template. -/
def trim (c : Cursor) : Cursor := ⟨c.previous, upToEof c.rest⟩

/-- The next token is not cut off, as only what is behind an end is. -/
@[simp] theorem current_trim (c : Cursor) : c.trim.current = c.current := by
  match c with
  | ⟨_, []⟩ => rfl
  | ⟨_, t :: ts⟩ =>
    rw [current, trim, upToEof]
    split <;> rfl

@[simp] theorem kind_trim (c : Cursor) : c.trim.kind = c.kind := congrArg Token.kind c.current_trim

@[simp] theorem unexpected_trim (c : Cursor) : c.trim.unexpected = c.unexpected := by
  funext wanted
  rw [unexpected, unexpected, kind_trim, current_trim]

/-- Moving on and cutting off what is behind the end can be done in either order. -/
@[simp] theorem advance_trim (c : Cursor) : c.trim.advance = c.advance.trim := by
  by_cases h : c.kind = .eof
  · rw [advance_of_eof (c.kind_trim.trans h), advance_of_eof h]
  · have hcut : upToEof c.rest = c.current :: upToEof c.advance.rest := by
      rw [rest_advance h, upToEof]
      exact if_neg h
    have hne : ¬c.trim.atEnd = true := by simpa [atEnd] using h
    have hne' : ¬c.atEnd = true := by simpa [atEnd] using h
    calc c.trim.advance
        = ⟨c.current.span, (upToEof c.rest).tail⟩ := by
          rw [advance, if_neg hne, current_trim]
          rfl
      _ = c.advance.trim := by
          rw [hcut, trim, advance, if_neg hne']
          rfl

/-- A token is expected alike with the tail and without it. -/
@[simp] theorem expect_trim (c : Cursor) (k : Kind) :
    c.trim.expect k = (c.expect k).map trim := by
  rw [expect, expect, kind_trim, advance_trim, unexpected_trim]
  split <;> rfl

end Cursor

/-- What is read, with the rest cut off behind the end of the template. -/
def trimmed {α : Type} (r : Except ParseError (α × Cursor)) : Except ParseError (α × Cursor) :=
  r.map fun s => (s.1, s.2.trim)

section Trimmed

variable {α β : Type}

theorem trimmed_map (f : α → β) (r : Except ParseError (α × Cursor)) :
    (trimmed r).map (fun s => (f s.1, s.2)) = trimmed (r.map fun s => (f s.1, s.2)) := by
  cases r <;> rfl

/-- What is read in two steps is read alike if each step is. -/
theorem trimmed_bind (r : Except ParseError (α × Cursor))
    {f : α × Cursor → Except ParseError (β × Cursor)}
    {g : α × Cursor → Except ParseError (β × Cursor)}
    (h : ∀ a d, r = .ok (a, d) → g (a, d.trim) = trimmed (f (a, d))) :
    (trimmed r).bind g = trimmed (r.bind f) := by
  cases r with
  | error e => rfl
  | ok s => exact h s.1 s.2 rfl

end Trimmed

/-! ## Heads and text blocks -/

/-- A list ends before the end of the template, so the tail behind that makes no difference to
    it. -/
theorem listedAttributes_trim (c : Cursor) :
    listedAttributes c.trim = ((listedAttributes c).1, (listedAttributes c).2.trim) := by
  fun_induction listedAttributes c with
  | case1 c name value hl attrs d h ih =>
    rw [h] at ih
    rw [listedAttributes_attr (c.current_trim ▸ hl), Cursor.advance_trim, ih, Cursor.current_trim]
  | case2 c hl =>
    refine listedAttributes_end fun hk => ?_
    obtain ⟨name, value, hattr⟩ := Lexeme.eq_attr (c.kind_trim ▸ hk)
    exact hl name value hattr

/-- Shorthands and lists are read alike without the tail. -/
theorem attributeRun_trim (c : Cursor) : attributeRun c.trim = trimmed (attributeRun c) := by
  induction hn : c.rest.length using Nat.strongRecOn generalizing c with
  | ind n ih =>
    subst hn
    have hcurrent := c.current_trim
    cases hl : c.current.lexeme with
    | idShorthand x =>
      have hlt := c.advance_lt (Cursor.kind_ne_eof hl (by simp [Lexeme.kind]))
      rw [attributeRun_idShorthand hl, attributeRun_idShorthand (hcurrent ▸ hl), hcurrent,
        Cursor.advance_trim, ih _ hlt _ rfl, trimmed_map (_ :: ·)]
    | classShorthand x =>
      have hlt := c.advance_lt (Cursor.kind_ne_eof hl (by simp [Lexeme.kind]))
      rw [attributeRun_classShorthand hl, attributeRun_classShorthand (hcurrent ▸ hl), hcurrent,
        Cursor.advance_trim, ih _ hlt _ rfl, trimmed_map (_ :: ·)]
    | openAttributes =>
      rw [attributeRun_list hl, attributeRun_list (hcurrent ▸ hl), Cursor.advance_trim,
        listedAttributes_trim, Cursor.expect_trim]
      cases he : (listedAttributes c.advance).2.expect .closeAttributes with
      | error e => rfl
      | ok d =>
        have hlt : d.rest.length < c.rest.length :=
          Nat.lt_of_le_of_lt (Nat.le_trans (Cursor.expect_le he) (listedAttributes_le _))
            (c.advance_lt (Cursor.kind_ne_eof hl (by simp [Lexeme.kind])))
        exact (congrArg (Except.map _) (ih _ hlt d rfl)).trans (trimmed_map (_ ++ ·) _)
    | _ =>
      have hend : c.kind ≠ .idShorthand ∧ c.kind ≠ .classShorthand ∧ c.kind ≠ .openAttributes := by
        simp [Cursor.kind, Token.kind, hl, Lexeme.kind]
      rw [attributeRun_end hend, attributeRun_end (by rwa [Cursor.kind_trim])]
      rfl

/-- A text block is read alike without the tail. -/
theorem textBlockItems_trim (c : Cursor) : textBlockItems c.trim = trimmed (textBlockItems c) := by
  induction hn : c.rest.length using Nat.strongRecOn generalizing c with
  | ind n ih =>
    subst hn
    have hcurrent := c.current_trim
    cases hl : c.current.lexeme with
    | text value =>
      have hlt := c.advance_lt (Cursor.kind_ne_eof hl (by simp [Lexeme.kind]))
      rw [textBlockItems_text hl, textBlockItems_text (hcurrent ▸ hl), hcurrent,
        Cursor.advance_trim, ih _ hlt _ rfl, trimmed_map (_ :: ·)]
    | newline =>
      have hlt := c.advance_lt (Cursor.kind_ne_eof hl (by simp [Lexeme.kind]))
      rw [textBlockItems_newline hl, textBlockItems_newline (hcurrent ▸ hl), hcurrent,
        Cursor.advance_trim, ih _ hlt _ rfl, trimmed_map (_ :: ·)]
    | closeTextBlock =>
      rw [textBlockItems_close hl, textBlockItems_close (hcurrent ▸ hl), Cursor.advance_trim]
      rfl
    | _ =>
      have hk : ∀ k ∈ [Kind.text, .newline, .closeTextBlock], c.kind ≠ k := by
        simp [Cursor.kind, Token.kind, hl, Lexeme.kind]
      rw [textBlockItems_unexpected hk, textBlockItems_unexpected (by rwa [Cursor.kind_trim]),
        Cursor.unexpected_trim]
      rfl

/-- A head is read alike without the tail. -/
theorem readHead_trim (c : Cursor) : readHead c.trim = trimmed (readHead c) := by
  cases hl : c.current.lexeme with
  | tag name =>
    rw [readHead, readHead, Cursor.current_trim, hl]
    dsimp only
    rw [Cursor.advance_trim, attributeRun_trim]
    exact trimmed_map (TagHead.mk name) _
  | _ =>
    rw [readHead, readHead, Cursor.current_trim, hl]
    dsimp only
    rw [attributeRun_trim]
    exact trimmed_map (TagHead.mk defaultTag) _

/-! ## Goals -/

theorem before_trimmed (is : List Item) (r : Except ParseError (List Item × Cursor)) :
    before is (trimmed r) = trimmed (before is r) := trimmed_map (is ++ ·) r

namespace Goal

variable {c : Cursor}

/-- What is read at later cursors does not depend on what is behind the end. -/
def TrimsLater (c : Cursor) : Prop :=
  ∀ (g : Goal) (d : Cursor), d.rest.length < c.rest.length → g.read d.trim = trimmed (g.read d)

/-- Behind a token other than the end everything is read later. -/
theorem TrimsLater.advance (h : TrimsLater c) {l : Lexeme} (hl : c.current.lexeme = l)
    (hk : l.kind ≠ .eof) (g : Goal) : g.read c.trim.advance = trimmed (g.read c.advance) := by
  rw [Cursor.advance_trim]
  exact h g _ (c.advance_lt (Cursor.kind_ne_eof hl hk))

/-- A tag is read alike without the tail if all that is read later is. -/
theorem read_tag_trim (later : TrimsLater c) : tag.read c.trim = trimmed (tag.read c) := by
  by_cases hs : c.kind.startsTag = true
  · rw [read_tag hs, read_tag (by rwa [Cursor.kind_trim]), readHead_trim, Cursor.current_trim]
    refine trimmed_bind _ fun head b hh => ?_
    have hb := readHead_lt hs hh
    dsimp only
    rw [later inline b hb]
    refine trimmed_bind _ fun is d hi => ?_
    have hd := Nat.lt_of_le_of_lt (read_le hi) hb
    dsimp only
    rw [later nested d hd]
    cases nested.read d <;> rfl
  · rw [read, read, dif_neg hs, dif_neg (by rwa [Cursor.kind_trim]), Cursor.unexpected_trim]
    rfl

/-- Items are read alike without the tail if all that is read later is. -/
theorem read_items_trim {stop : Kind} {a : Bool} (later : TrimsLater c) :
    (items stop a).read c.trim = trimmed ((items stop a).read c) := by
  have hcurrent := c.current_trim
  by_cases hs : c.kind.startsTag = true
  · -- A tag is read at the same cursor, and the other items after it.
    rw [read_items_tag hs, read_items_tag (by rwa [Cursor.kind_trim]), read_tag_trim later]
    refine trimmed_bind _ fun is d ht => ?_
    rw [later (items stop false) d (read_tag_lt ht), before_trimmed]
  · cases hl : c.current.lexeme with
    | eof =>
      rw [read_items_stop (.inl hl), read_items_stop (.inl (hcurrent ▸ hl)), Cursor.kind_trim,
        Cursor.unexpected_trim]
      split <;> rfl
    | outdent =>
      rw [read_items_stop (.inr hl), read_items_stop (.inr (hcurrent ▸ hl)), Cursor.kind_trim,
        Cursor.unexpected_trim]
      split <;> rfl
    | newline =>
      rw [read_items_newline hl, read_items_newline (hcurrent ▸ hl),
        later.advance hl (by simp [Lexeme.kind])]
    | text value =>
      rw [read_items_text hl, read_items_text (hcurrent ▸ hl), hcurrent,
        later.advance hl (by simp [Lexeme.kind]), before_trimmed]
    | comment value buffered =>
      rw [read_items_comment hl, read_items_comment (hcurrent ▸ hl), hcurrent,
        later.advance hl (by simp [Lexeme.kind]), before_trimmed]
    | _ =>
      have hs' : c.kind.startsTag = false := by simpa using hs
      have hk : ∀ k ∈ [Kind.eof, .outdent, .newline, .text, .comment], c.kind ≠ k := by
        simp [Cursor.kind, Token.kind, hl, Lexeme.kind]
      rw [read_items_unexpected hs' hk,
        read_items_unexpected (by rwa [Cursor.kind_trim]) (by rwa [Cursor.kind_trim]),
        Cursor.unexpected_trim]
      rfl

/-- The content of a line is read alike without the tail if all that is read later is. -/
theorem read_inline_trim (later : TrimsLater c) :
    inline.read c.trim = trimmed (inline.read c) := by
  have hcurrent := c.current_trim
  cases hl : c.current.lexeme with
  | colon =>
    rw [read_inline_colon hl, read_inline_colon (hcurrent ▸ hl),
      later.advance hl (by simp [Lexeme.kind]), Cursor.advance_trim, Cursor.kind_trim,
      Cursor.unexpected_trim]
    split <;> rfl
  | openTextBlock =>
    rw [read_inline_block hl, read_inline_block (hcurrent ▸ hl), Cursor.advance_trim,
      textBlockItems_trim]
  | text value =>
    rw [read_inline_text hl, read_inline_text (hcurrent ▸ hl), hcurrent, Cursor.advance_trim]
    rfl
  | _ =>
    have hk : ∀ k ∈ [Kind.colon, .openTextBlock, .text], c.kind ≠ k := by
      simp [Cursor.kind, Token.kind, hl, Lexeme.kind]
    rw [read_inline_none hk, read_inline_none (by rwa [Cursor.kind_trim])]
    rfl

/-- A nested block is read alike without the tail if all that is read later is. -/
theorem read_nested_trim (later : TrimsLater c) :
    nested.read c.trim = trimmed (nested.read c) := by
  by_cases hi : c.kind = .indent
  · have hne : c.kind ≠ .eof := by simp [hi]
    rw [read_nested_indent hi, read_nested_indent (by rwa [Cursor.kind_trim]),
      Cursor.advance_trim, later _ _ (c.advance_lt hne), Cursor.current_trim]
    refine trimmed_bind _ fun is d _ => ?_
    dsimp only
    rw [Cursor.expect_trim]
    cases d.expect .outdent <;> rfl
  · rw [read_nested_none hi, read_nested_none (by rwa [Cursor.kind_trim])]
    rfl

/-- What is read does not depend on what is behind the end of the template. -/
theorem read_trim (g : Goal) (c : Cursor) : g.read c.trim = trimmed (g.read c) := by
  induction hn : c.rest.length using Nat.strongRecOn generalizing g c with
  | ind n ih =>
    subst hn
    have later : TrimsLater c := fun g d hlt => ih _ hlt g d rfl
    cases g with
    | items stop a => exact read_items_trim later
    | tag => exact read_tag_trim later
    | inline => exact read_inline_trim later
    | nested => exact read_nested_trim later

end Goal

/-- Nothing behind the end of the template is parsed, and an end that is missing can be written
    out. -/
theorem Block.ofTokens_upToEof (ts : List Token) : ofTokens (upToEof ts) = ofTokens ts := by
  have htrim : Cursor.ofTokens (upToEof ts) = (Cursor.ofTokens ts).trim := rfl
  rw [ofTokens_eq, ofTokens_eq, htrim, Goal.read_trim]
  cases hread : (Goal.items .eof false).read (.ofTokens ts) with
  | error e => rfl
  | ok r =>
    have hspan : r.2.trim.current.span = r.2.current.span := by rw [Cursor.current_trim]
    exact congrArg (fun s => Except.ok (Block.ofItems r.1 s)) hspan

end SlotMarkup
