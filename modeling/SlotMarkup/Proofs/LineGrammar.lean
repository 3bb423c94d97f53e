import SlotMarkup.Proofs.ReaderEquations

/-!
# The tokens of a line

What the content of a line can be cut into: a chain of tags, a text, or a
comment. A tag of a chain is a head (`IsHead`), which is a name or a shorthand
and a run of further parts (`IsParts`), and after it a colon and the rest of the
chain, or a body (`IsBody`).

* `isChain_of_tagLine`: a line of markup is cut into a chain;
* `lineContent_cases`: every line is cut into one of the three;
* `nestedRun_stop`: what follows a comment is not indented more deeply.
-/

namespace SlotMarkup

/-- A run of shorthands and attribute lists. -/
inductive IsParts : List Token → Prop
  | nil : IsParts []
  | shorthand {t ts} (h : t.kind = .idShorthand ∨ t.kind = .classShorthand) (more : IsParts ts) :
      IsParts (t :: ts)
  | list {o as c ts} (ho : o.kind = .openAttributes) (has : ∀ a ∈ as, a.kind = .attr)
      (hc : c.kind = .closeAttributes) (more : IsParts ts) : IsParts (o :: (as ++ c :: ts))

/-- The start of a tag: its name, which starts with a word character, or a
    shorthand. -/
def StartsTag (t : Token) : Prop :=
  (∃ name, t.lexeme = .tag name ∧ ∃ c ∈ name.toList.head?, isWord c = true) ∨
    t.kind = .idShorthand ∨ t.kind = .classShorthand

/-- The head of a tag. -/
inductive IsHead : List Token → Prop
  | start {t ts} (ht : StartsTag t) (more : IsParts ts) : IsHead (t :: ts)

/-- What is in a tag on its own line: nothing, a text, or a text block. -/
inductive IsBody : List Token → Prop
  | nil : IsBody []
  | text {t} (h : t.kind = .text) : IsBody [t]
  | block {o ts c} (ho : o.kind = .openTextBlock)
      (hts : ∀ t ∈ ts, t.kind = .text ∨ t.kind = .newline)
      (hc : c.kind = .closeTextBlock) : IsBody (o :: (ts ++ [c]))

/-- Tags, each the only content of the one before, and the body of the last. -/
inductive IsChain : List Token → Prop
  | last {head body} (hh : IsHead head) (hb : IsBody body) : IsChain (head ++ body)
  | colon {head c ts} (hh : IsHead head) (hc : c.kind = .colon) (more : IsChain ts) :
      IsChain (head ++ c :: ts)

/-- The kinds of tokens in a chain, but for those that can start a tag. -/
def chainKinds : List Kind :=
  [.openAttributes, .attr, .closeAttributes, .text, .openTextBlock, .newline, .closeTextBlock,
   .colon]

theorem StartsTag.kind {t : Token} (h : StartsTag t) : t.kind.startsTag = true := by
  rw [Kind.startsTag_iff]
  rcases h with ⟨name, h, -⟩ | h
  · exact .inl (by rw [Token.kind, h]; rfl)
  · exact .inr h

/-- What the tokens of shorthands and lists can be. -/
theorem IsParts.mem {ts : List Token} (h : IsParts ts) :
    ∀ t ∈ ts, StartsTag t ∨ t.kind ∈ chainKinds := by
  induction h with
  | nil => simp
  | shorthand h _ ih =>
    intro t ht
    rcases List.mem_cons.1 ht with rfl | ht
    · exact .inl (.inr h)
    · exact ih t ht
  | list ho has hc _ ih =>
    intro t ht
    rcases List.mem_cons.1 ht with rfl | ht
    · exact .inr (by simp [ho, chainKinds])
    · rcases List.mem_append.1 ht with ht | ht
      · exact .inr (by simp [has t ht, chainKinds])
      · rcases List.mem_cons.1 ht with rfl | ht
        · exact .inr (by simp [hc, chainKinds])
        · exact ih t ht

/-- What the tokens of a head can be. -/
theorem IsHead.mem {ts : List Token} (h : IsHead ts) :
    ∀ t ∈ ts, StartsTag t ∨ t.kind ∈ chainKinds := by
  obtain ⟨ht, more⟩ := h
  intro t h
  rcases List.mem_cons.1 h with rfl | h
  · exact .inl ht
  · exact more.mem t h

/-- What the tokens of a body can be. None of them starts a tag. -/
theorem IsBody.mem {ts : List Token} (h : IsBody ts) : ∀ t ∈ ts, t.kind ∈ chainKinds := by
  cases h with
  | nil => simp
  | text h => simp [h, chainKinds]
  | block ho hts hc =>
    intro t ht
    rcases List.mem_cons.1 ht with rfl | ht
    · simp [ho, chainKinds]
    · rcases List.mem_append.1 ht with ht | ht
      · rcases hts t ht with h | h <;> simp [h, chainKinds]
      · simp [List.mem_singleton.1 ht, hc, chainKinds]

/-- What the tokens of a chain can be. -/
theorem IsChain.mem {ts : List Token} (h : IsChain ts) :
    ∀ t ∈ ts, StartsTag t ∨ t.kind ∈ chainKinds := by
  induction h with
  | last hh hb =>
    intro t ht
    rcases List.mem_append.1 ht with ht | ht
    · exact hh.mem t ht
    · exact .inr (hb.mem t ht)
  | colon hh hc _ ih =>
    intro t ht
    rcases List.mem_append.1 ht with ht | ht
    · exact hh.mem t ht
    · rcases List.mem_cons.1 ht with rfl | ht
      · exact .inr (by simp [hc, chainKinds])
      · exact ih t ht

/-- A property of the names of all tags among the tokens. -/
def TagNames (P : String → Prop) (ts : List Token) : Prop :=
  ∀ t ∈ ts, ∀ name, t.lexeme = .tag name → P name

theorem TagNames.of_suffix {P : String → Prop} {ts us : List Token} (h : TagNames P ts)
    (hs : us <:+ ts) : TagNames P us := fun t ht => h t (hs.subset ht)

theorem TagNames.of_prefix {P : String → Prop} {ts us : List Token} (h : TagNames P ts)
    (hs : us <+: ts) : TagNames P us := fun t ht => h t (hs.subset ht)

/-! ## Attribute lists -/

/-- What is read as an attribute is one. -/
theorem readAttribute_kind {p q : Place} {t : Token} (h : readAttribute p = .ok (t, q)) :
    t.kind = .attr := by
  rw [readAttribute] at h
  split at h
  · simp at h
  · split at h
    · obtain ⟨rfl, -⟩ := Prod.mk.inj (Except.ok.inj h)
      rfl
    · obtain ⟨r, -, hr⟩ := map_eq_ok_iff.1 h
      obtain ⟨rfl, -⟩ := Prod.mk.inj hr
      rfl

/-- Attributes are tokens one by one, and the parenthesis that closes the list is the last. -/
theorem attributesFrom_kinds {start p q : Place} {ts : List Token}
    (h : attributesFrom start p = .ok (ts, q)) :
    ∃ as c, ts = as ++ [c] ∧ (∀ a ∈ as, a.kind = .attr) ∧ c.kind = .closeAttributes := by
  fun_induction attributesFrom start p generalizing ts with
  | case1 => simp at h
  | case2 p r =>
    obtain ⟨rfl, -⟩ := Prod.mk.inj (Except.ok.inj h)
    exact ⟨[], _, rfl, by simp, rfl⟩
  | case3 => simp at h
  | case4 p r t _ hr =>
    rename_i ih
    obtain ⟨us, hus, rfl⟩ := Scan.after_eq_ok_iff.1 h
    obtain ⟨as, c, rfl, has, hc⟩ := ih hus
    refine ⟨t :: as, c, rfl, fun a ha => ?_, hc⟩
    rcases List.mem_cons.1 ha with rfl | ha
    · exact readAttribute_kind hr
    · exact has a ha

/-! ## Heads -/

/-- A shorthand names an id or a class. -/
theorem shorthand?_kind {p q : Place} {t : Token} (h : shorthand? p = some (t, q)) :
    t.kind = .idShorthand ∨ t.kind = .classShorthand := by
  obtain ⟨sigil, f, cs, hf, -, -, ht, -⟩ := shorthand?_eq_some h
  rw [Token.kind, ht]
  rw [sigil?.eq_def] at hf
  split at hf
  · obtain rfl := Option.some.inj hf
    exact .inl rfl
  · obtain rfl := Option.some.inj hf
    exact .inr rfl
  · simp at hf

/-- What is read behind the name of a tag is a run of shorthands and lists. -/
theorem isParts_of_tagParts {p q : Place} {ts : List Token} (h : tagParts p = .ok (ts, q)) :
    IsParts ts := by
  fun_induction tagParts p generalizing ts with
  | case1 p t r hs ih =>
    obtain ⟨us, hus, rfl⟩ := Scan.after_eq_ok_iff.1 h
    exact .shorthand (shorthand?_kind hs) (ih hus)
  | case2 => simp at h
  | case3 p _ hp us r hl ih =>
    obtain ⟨vs, hvs, rfl⟩ := Scan.after_eq_ok_iff.1 h
    obtain ⟨ws, hws, rfl⟩ := Scan.after_eq_ok_iff.1 hl
    obtain ⟨as, c, rfl, has, hc⟩ := attributesFrom_kinds hws
    simpa using IsParts.list (o := .read .openAttributes p (p.drop 1)) rfl has hc (ih hvs)
  | case4 =>
    obtain ⟨rfl, -⟩ := Prod.mk.inj (Except.ok.inj h)
    exact .nil

/-- A tag name starts as the text does, with a word character. -/
theorem tagName?_head {cs name : List Char} (h : tagName? cs = some name) :
    ∃ c ∈ name.head?, isWord c = true := by
  obtain ⟨-, hlen⟩ := tagName?_ne_nil h
  obtain ⟨ds, rfl, -⟩ := wordBreak_tagName? h
  rw [tagName?] at h
  split at h
  · rename_i hw
    cases name with
    | nil => simp at hlen
    | cons c name => exact ⟨c, rfl, by simpa using hw⟩
  · simp at h

/-- What is read as a head is one. -/
theorem isHead_of_tagHead {p q : Place} {ts : List Token} (h : tagHead p = .ok (ts, q)) :
    IsHead ts := by
  rw [tagHead] at h
  split at h
  · rename_i name hname
    dsimp only at h
    split at h
    · simp at h
    · obtain ⟨us, hus, rfl⟩ := Scan.after_eq_ok_iff.1 h
      refine .start (.inl ⟨_, rfl, ?_⟩) (isParts_of_tagParts hus)
      rw [String.toList_ofList]
      exact tagName?_head hname
  · split at h
    · rename_i t r hs
      obtain ⟨us, hus, rfl⟩ := Scan.after_eq_ok_iff.1 h
      exact .start (.inr (shorthand?_kind hs)) (isParts_of_tagParts hus)
    · simp at h

/-! ## Bodies -/

theorem textLineTokens_kind {l : Stretch} {t : Token} (h : t ∈ textLineTokens l) :
    t.kind = .text := by
  rw [textLineTokens] at h
  split at h
  · simp at h
  · rw [List.mem_singleton.1 h]
    rfl

/-- Between the lines of a text block there are line breaks, and nothing else is in it. -/
theorem textLinesTokens_kind {lines : List Stretch} {t : Token} (h : t ∈ textLinesTokens lines) :
    t.kind = .text ∨ t.kind = .newline := by
  induction lines with
  | nil => simp [textLinesTokens] at h
  | cons l lines ih =>
    rcases List.mem_cons.1 h with rfl | h
    · exact .inr rfl
    · rcases List.mem_append.1 h with h | h
      · exact .inl (textLineTokens_kind h)
      · exact ih h

/-- A text block is opened and closed, with texts and line breaks in between. -/
theorem isBody_of_textBlock {indent : Nat} {p q : Place} {ts : List Token}
    (h : textBlock indent p = (ts, q)) : IsBody ts := by
  rw [textBlock] at h
  dsimp only at h
  obtain ⟨rfl, -⟩ := Prod.mk.inj h
  refine .block rfl (fun t ht => ?_) rfl
  split at ht
  · simp at ht
  · rcases List.mem_append.1 ht with ht | ht
    · exact .inl (textLineTokens_kind ht)
    · exact textLinesTokens_kind ht

/-- Behind a head there is a text, a text block or nothing. -/
theorem isBody_of_tagBody {indent : Nat} {p q : Place} {ts : List Token}
    (h : tagBody indent p = .ok (ts, q)) : IsBody ts := by
  rw [tagBody] at h
  split at h
  · obtain ⟨rfl, -⟩ := Prod.mk.inj (Except.ok.inj h)
    exact .nil
  · split at h
    · split at h
      · exact isBody_of_textBlock (Except.ok.inj h)
      · simp at h
    · dsimp only at h
      split at h
      · obtain ⟨rfl, -⟩ := Prod.mk.inj (Except.ok.inj h)
        exact .nil
      · obtain ⟨rfl, -⟩ := Prod.mk.inj (Except.ok.inj h)
        exact .text rfl
    · split at h
      · obtain ⟨rfl, -⟩ := Prod.mk.inj (Except.ok.inj h)
        exact .nil
      · simp at h
    all_goals simp at h

/-- A line of tags is a chain of heads, with colons between and a body behind the last. -/
theorem isChain_of_tagLine {indent : Nat} {p q : Place} {ts : List Token}
    (h : tagLine indent p = .ok (ts, q)) : IsChain ts := by
  fun_induction tagLine indent p generalizing ts with
  | case1 => simp at h
  | case2 => simp at h
  | case3 p head r hp =>
    rename_i ih
    obtain ⟨us, hus, rfl⟩ := Scan.after_eq_ok_iff.1 h
    rw [List.append_assoc]
    exact .colon (isHead_of_tagHead hp) rfl (ih hus)
  | case4 p head r hp =>
    obtain ⟨us, hus, rfl⟩ := Scan.after_eq_ok_iff.1 h
    exact .last (isHead_of_tagHead hp) (isBody_of_tagBody hus)

/-! ## Lines -/

/-- A nested run ends at the end of the text, or before a line that is neither blank
    nor deeper. -/
theorem nestedRun_stop (base : Nat) (p : Place) : (nestedRun base p).2.rest = [] ∨
    (isBlankText (nestedRun base p).2.line = false ∧ (nestedRun base p).2.indent ≤ base) := by
  fun_induction nestedRun base p with
  | case1 p hp => exact .inl hp
  | case2 p _ _ lines next h ih => rwa [h] at ih
  | case3 p _ hb => exact .inr (by simpa using hb)

/-- The bar or the angle bracket that a line of text starts with. -/
def startsText (p : Place) : Bool := p.rest.head? == some '|' || p.rest.head? == some '<'

/-- A line is a text, a comment that takes all lines nested below it, or a chain of tags. Which
    lines are texts can be seen from how they start. -/
theorem lineContent_cases {indent : Nat} {p q : Place} {ts : List Token}
    (h : lineContent indent p = .ok (ts, q)) :
    (startsText p = true ∧ ∃ t, ts = [t] ∧ t.kind = .text) ∨
    (startsText p = false ∧ (∃ t, ts = [t] ∧ t.kind = .comment) ∧
      (q.rest = [] ∨ (isBlankText q.line = false ∧ q.indent ≤ indent))) ∨
    (startsText p = false ∧ IsChain ts) := by
  rw [lineContent] at h
  split at h
  · rename_i hp
    obtain ⟨rfl, rfl⟩ := Prod.mk.inj (Except.ok.inj h)
    exact .inr (.inl ⟨by simp [startsText, hp], ⟨_, rfl, rfl⟩, nestedRun_stop indent p.nextLine⟩)
  · simp at h
  · rename_i hp
    obtain ⟨rfl, rfl⟩ := Prod.mk.inj (Except.ok.inj h)
    exact .inl ⟨by simp [startsText, hp], _, rfl, rfl⟩
  · rename_i hp
    obtain ⟨rfl, rfl⟩ := Prod.mk.inj (Except.ok.inj h)
    exact .inl ⟨by simp [startsText, hp], _, rfl, rfl⟩
  · simp at h
  · simp at h
  · simp at h
  · rename_i hbar hangle _ _ _
    refine .inr (.inr ⟨Bool.eq_false_iff.2 fun hs => ?_, isChain_of_tagLine h⟩)
    simp only [startsText, Bool.or_eq_true, beq_iff_eq] at hs
    rcases hs with hs | hs
    · obtain ⟨cs, hcs⟩ := List.head?_eq_some_iff.1 hs
      exact hbar cs hcs
    · obtain ⟨cs, hcs⟩ := List.head?_eq_some_iff.1 hs
      exact hangle cs hcs

end SlotMarkup
