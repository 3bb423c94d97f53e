import SlotMarkup.Proofs.KindGrammar

/-!
# The parser accepts its grammar

The grammar of markup is ambiguous, and the parser takes all it can get and never goes
back. It does not get stuck: what it leaves over can follow inside the tags that are
still open, however the tokens it took were meant (`Owed`).

* `OwedHead.of_shorthand`, `Owed.of_text`: what the parser takes can be taken;
* `accepts`: what is in the grammar is read;
* `Block.ofTokens_ok_iff`: the parser accepts its grammar and nothing else.
-/

namespace SlotMarkup

/-! ## What the parser leaves over -/

/-- The items below a line end here: with the template, or at an outdent. -/
def EndsItems (stop : Kind) (tail : List Kind) : Prop :=
  (tail = [] ∧ stop = .eof) ∨ (∃ ks, tail = .outdent :: ks) ∧ stop = .outdent

/-- What can follow inside a chain of tags of which `n` can still get items nested below
    them: such items, at most one run for each, the further items beside the chain, and
    then `tail`. -/
inductive Owed (tail : List Kind) : Nat → List Kind → Prop
  | items {n ks} (h : Derives .items ks) : Owed tail n (ks ++ tail)
  | nested {n ks ls} (below : Derives .items ks) (more : Owed tail n ls) :
      Owed tail (n + 1) (.indent :: (ks ++ .outdent :: ls))

/-- What can follow the head of such a tag. -/
def OwedBody (tail : List Kind) (n : Nat) (ks : List Kind) : Prop :=
  ∃ bs ls, Derives .body bs ∧ Owed tail (n + 1) ls ∧ ks = bs ++ ls

/-- What can follow the start of such a tag. -/
def OwedHead (tail : List Kind) (n : Nat) (ks : List Kind) : Prop :=
  ∃ ps ls, PartKinds ps ∧ OwedBody tail n ls ∧ ks = ps ++ ls

/-- The kinds of token that an item can start with. -/
def itemKinds : List Kind := [.newline, .text, .comment, .tag, .idShorthand, .classShorthand]

section Owed

variable {tail : List Kind} {n : Nat}

theorem Owed.succ {ks : List Kind} (h : Owed tail n ks) : Owed tail (n + 1) ks := by
  induction h with
  | items h => exact .items h
  | nested below _ ih => exact .nested below ih

/-- What is nested below a tag takes the place of one that is owed. -/
theorem Owed.of_nested {ns ks : List Kind} (hns : Derives .nested ns) (h : Owed tail n ks) :
    Owed tail (n + 1) (ns ++ ks) := by
  cases hns with
  | noNested => exact h.succ
  | nested below => simpa using Owed.nested below h

/-- A tag in a chain is a start and what is owed after it. -/
theorem owedHead_of_tag {ks ls : List Kind} (h : Derives .tag ks) (more : Owed tail n ls) :
    ∃ k ms, ks ++ ls = k :: ms ∧ k.startsTag = true ∧ OwedHead tail n ms := by
  cases h with
  | @tag k ps bs ns hk parts body nested =>
    exact ⟨k, ps ++ (bs ++ (ns ++ ls)), by simp, hk, ps, _, parts,
      ⟨bs, _, body, .of_nested nested more, rfl⟩, rfl⟩

/-- Items are nothing, or a first item before others. -/
theorem Derives.items_cases {ks : List Kind} (h : Derives .items ks) : ks = [] ∨
    (∃ k ls, (k = .newline ∨ k = .text ∨ k = .comment) ∧ ks = k :: ls ∧ Derives .items ls) ∨
    ∃ ms ls, Derives .tag ms ∧ ks = ms ++ ls ∧ Derives .items ls := by
  cases h with
  | noItems => exact .inl rfl
  | items first more =>
    cases first with
    | newline => exact .inr (.inl ⟨_, _, .inl rfl, rfl, more⟩)
    | text => exact .inr (.inl ⟨_, _, .inr (.inl rfl), rfl, more⟩)
    | comment => exact .inr (.inl ⟨_, _, .inr (.inr rfl), rfl, more⟩)
    | tagItem tag => exact .inr (.inr ⟨_, _, tag, rfl, more⟩)

/-- The first of the items is known by its first token. -/
theorem Derives.head_items {k : Kind} {ks ls : List Kind} (h : Derives .items ls)
    (hks : ls ++ tail = k :: ks) : (∃ ms, tail = k :: ms) ∨ k ∈ itemKinds := by
  rcases h.items_cases with rfl | ⟨l, ms, hl, rfl, -⟩ | ⟨ms, ls, htag, rfl, -⟩
  · exact .inl ⟨ks, hks⟩
  · obtain ⟨rfl, -⟩ := List.cons.inj hks
    rcases hl with rfl | rfl | rfl <;> exact .inr (by decide)
  · cases htag with
    | tag hk =>
      obtain ⟨rfl, -⟩ := List.cons.inj hks
      rcases Kind.startsTag_iff _ |>.1 hk with rfl | rfl | rfl <;> exact .inr (by decide)

/-- Only what is nested starts with an indentation. -/
theorem Owed.head {stop k : Kind} {ks : List Kind} (hs : EndsItems stop tail)
    (h : Owed tail n (k :: ks)) : k = .indent ∨ k = .outdent ∨ k ∈ itemKinds := by
  generalize hks : k :: ks = ms at h
  cases h with
  | items h =>
    rcases h.head_items hks.symm with ⟨ls, hls⟩ | hk
    · rcases hs with ⟨rfl, -⟩ | ⟨⟨_, rfl⟩, -⟩
      · simp at hls
      · exact .inr (.inl (List.cons.inj hls).1.symm)
    · exact .inr (.inr hk)
  | nested => exact .inl (List.cons.inj hks).1

theorem Owed.of_indent {stop : Kind} {ks : List Kind} (hs : EndsItems stop tail)
    (h : Owed tail (n + 1) (.indent :: ks)) :
    ∃ ms ls, Derives .items ms ∧ Owed tail n ls ∧ ks = ms ++ .outdent :: ls := by
  generalize hks : Kind.indent :: ks = ms at h
  cases h with
  | items h =>
    rcases h.head_items hks.symm with ⟨ls, hls⟩ | hk
    · rcases hs with ⟨rfl, -⟩ | ⟨⟨_, rfl⟩, -⟩ <;> simp at hls
    · simp [itemKinds] at hk
  | nested below more => exact ⟨_, _, below, more, (List.cons.inj hks).2⟩

/-- Without an indentation nothing is nested. -/
theorem Owed.of_no_indent {m : Nat} {ks : List Kind} (h : Owed tail n ks)
    (hks : ks.head? ≠ some .indent) : Owed tail m ks := by
  cases h with
  | items h => exact .items h
  | nested => simp at hks

/-- A text is an item, so that a tag can take it instead. -/
theorem Owed.of_text {stop : Kind} {ks : List Kind} (hs : EndsItems stop tail)
    (h : Owed tail n (.text :: ks)) : Owed tail n ks := by
  generalize hks : Kind.text :: ks = ms at h
  cases h with
  | items h =>
    rcases h.items_cases with rfl | ⟨l, ms, -, rfl, more⟩ | ⟨ms, ls, htag, rfl, -⟩
    · rcases hs with ⟨rfl, -⟩ | ⟨⟨_, rfl⟩, -⟩ <;> simp at hks
    · obtain ⟨-, rfl⟩ := List.cons.inj hks
      exact .items more
    · cases htag with
      | tag hk =>
        obtain ⟨rfl, -⟩ := List.cons.inj hks
        simp [Kind.startsTag] at hk
  | nested => simp at hks

/-- A shorthand starts a tag, so that the head before it can take it instead. -/
theorem Owed.of_shorthand {m : Nat} {stop k : Kind} {ks : List Kind} (hs : EndsItems stop tail)
    (hk : k = .idShorthand ∨ k = .classShorthand) (h : Owed tail m (k :: ks)) :
    OwedHead tail n ks := by
  generalize hks : k :: ks = ms at h
  cases h with
  | items h =>
    rcases h.items_cases with rfl | ⟨l, ms, hl, rfl, -⟩ | ⟨ms, ls, htag, rfl, more⟩
    · rcases hs with ⟨rfl, -⟩ | ⟨⟨_, rfl⟩, -⟩
      · simp at hks
      · rcases hk with rfl | rfl <;> simp at hks
    · obtain ⟨rfl, -⟩ := List.cons.inj hks
      rcases hl with rfl | rfl | rfl <;> simp at hk
    · obtain ⟨l, ms', hms, -, hhead⟩ := owedHead_of_tag htag (.items (n := n) more)
      rw [List.append_assoc, hms] at hks
      obtain ⟨-, rfl⟩ := List.cons.inj hks
      exact hhead
  | nested =>
    obtain ⟨rfl, -⟩ := List.cons.inj hks
    simp at hk

/-- A body that is empty or starts with a colon, a dot or a text. -/
theorem OwedBody.cases {ks : List Kind} (h : OwedBody tail n ks) :
    Owed tail (n + 1) ks ∨
    (∃ ms ls, Derives .tag ms ∧ Owed tail (n + 1) ls ∧ ks = .colon :: (ms ++ ls)) ∨
    (∃ ms ls, (∀ k ∈ ms, k = .text ∨ k = .newline) ∧ Owed tail (n + 1) ls ∧
      ks = .openTextBlock :: (ms ++ .closeTextBlock :: ls)) ∨
    ∃ ls, Owed tail (n + 1) ls ∧ ks = .text :: ls := by
  obtain ⟨bs, ls, body, more, rfl⟩ := h
  cases body with
  | noBody => exact .inl more
  | colon only => exact .inr (.inl ⟨_, ls, only, more, rfl⟩)
  | block hms => exact .inr (.inr (.inl ⟨_, ls, hms, more, by simp⟩))
  | bodyText => exact .inr (.inr (.inr ⟨ls, more, rfl⟩))

theorem OwedBody.of_shorthand {stop k : Kind} {ks : List Kind} (hs : EndsItems stop tail)
    (hk : k = .idShorthand ∨ k = .classShorthand) (h : OwedBody tail n (k :: ks)) :
    OwedHead tail n ks := by
  rcases h.cases with more | ⟨_, _, -, -, hks⟩ | ⟨_, _, -, -, hks⟩ | ⟨_, -, hks⟩
  · exact more.of_shorthand hs hk
  all_goals
    obtain ⟨rfl, -⟩ := List.cons.inj hks
    simp at hk

/-- A shorthand after the start of a tag can always be taken as a part of its head. -/
theorem OwedHead.of_shorthand {stop k : Kind} {ks : List Kind} (hs : EndsItems stop tail)
    (hk : k = .idShorthand ∨ k = .classShorthand) (h : OwedHead tail n (k :: ks)) :
    OwedHead tail n ks := by
  obtain ⟨ps, ls, hps, hls, hks⟩ := h
  cases hps with
  | nil => exact (hks.symm ▸ hls : OwedBody tail n (k :: ks)).of_shorthand hs hk
  | shorthand _ more =>
    obtain ⟨-, rfl⟩ := List.cons.inj hks
    exact ⟨_, ls, more, hls, rfl⟩
  | list _ more =>
    obtain ⟨rfl, -⟩ := List.cons.inj hks
    simp at hk

/-- Nothing but an attribute list starts with its parenthesis. -/
theorem OwedHead.of_list {stop : Kind} {ks : List Kind} (hs : EndsItems stop tail)
    (h : OwedHead tail n (.openAttributes :: ks)) :
    ∃ m ls, ks = List.replicate m .attr ++ .closeAttributes :: ls ∧ OwedHead tail n ls := by
  obtain ⟨ps, ls, hps, hls, hks⟩ := h
  cases hps with
  | nil =>
    obtain rfl : .openAttributes :: ks = ls := hks
    rcases hls.cases with more | ⟨_, _, -, -, hks⟩ | ⟨_, _, -, -, hks⟩ | ⟨_, -, hks⟩
    · have hk := more.head hs
      simp [itemKinds] at hk
    all_goals simp at hks
  | shorthand hk _ =>
    obtain ⟨rfl, -⟩ := List.cons.inj hks
    simp at hk
  | list m more =>
    obtain ⟨-, rfl⟩ := List.cons.inj hks
    exact ⟨m, _, List.append_assoc _ _ _, _, ls, more, hls, rfl⟩

/-- Without a part there is only the body. -/
theorem OwedHead.body {ks : List Kind} (h : OwedHead tail n ks) (hks : ∀ k ∈ ks.head?,
    k ≠ .idShorthand ∧ k ≠ .classShorthand ∧ k ≠ .openAttributes) : OwedBody tail n ks := by
  obtain ⟨ps, ls, hps, hls, rfl⟩ := h
  cases hps with
  | nil => exact hls
  | shorthand hk _ =>
    obtain ⟨h₁, h₂, -⟩ := hks _ rfl
    rcases hk with hk | hk
    · exact absurd hk h₁
    · exact absurd hk h₂
  | list => exact absurd rfl (hks _ rfl).2.2

end Owed

/-! ## What is in the grammar is read -/

theorem listedAttributes_complete {m : Nat} {ls : List Kind} {c : Cursor}
    (h : c.kinds = List.replicate m .attr ++ .closeAttributes :: ls) :
    (listedAttributes c).2.kinds = .closeAttributes :: ls := by
  induction m generalizing c with
  | zero =>
    rw [listedAttributes_end (by simp [(Cursor.kind_of_kinds h).1])]
    exact h
  | succ m ih =>
    obtain ⟨hk, -, hadv⟩ := Cursor.kind_of_kinds h
    obtain ⟨name, value, hl⟩ := Lexeme.eq_attr hk
    rw [listedAttributes_attr hl]
    exact ih hadv

section Complete

variable {tail : List Kind} {stop : Kind} {n : Nat}

/-- The parser takes all parts, and what is left is owed after the head. -/
theorem OwedHead.attributeRun {c : Cursor} (hs : EndsItems stop tail)
    (h : OwedHead tail n c.kinds) :
    ∃ as d, attributeRun c = .ok (as, d) ∧ OwedBody tail n d.kinds := by
  fun_induction SlotMarkup.attributeRun c with
  | case1 c x hl ih =>
    rw [Cursor.kinds_of_lexeme hl (by simp [Lexeme.kind])] at h
    obtain ⟨as, d, has, hd⟩ := ih (h.of_shorthand hs (.inl rfl))
    exact ⟨_, d, by rw [has]; rfl, hd⟩
  | case2 c x hl ih =>
    rw [Cursor.kinds_of_lexeme hl (by simp [Lexeme.kind])] at h
    obtain ⟨as, d, has, hd⟩ := ih (h.of_shorthand hs (.inr rfl))
    exact ⟨_, d, by rw [has]; rfl, hd⟩
  | case3 c hl e he =>
    rw [Cursor.kinds_of_lexeme hl (by simp [Lexeme.kind])] at h
    obtain ⟨m, ls, hadv, -⟩ := h.of_list hs
    obtain ⟨hk, -⟩ := Cursor.kind_of_kinds (listedAttributes_complete hadv)
    simp [Cursor.expect, hk] at he
  | case4 c hl e he ih =>
    rw [Cursor.kinds_of_lexeme hl (by simp [Lexeme.kind])] at h
    obtain ⟨m, ls, hadv, hls⟩ := h.of_list hs
    obtain ⟨hk, -, hrest⟩ := Cursor.kind_of_kinds (listedAttributes_complete hadv)
    rw [Cursor.expect, if_pos hk] at he
    obtain rfl := Except.ok.inj he
    obtain ⟨as, d, has, hd⟩ := ih (hrest ▸ hls)
    exact ⟨_, d, by rw [has]; rfl, hd⟩
  | case5 c h₁ h₂ h₃ =>
    refine ⟨[], c, rfl, h.body fun k hk => ?_⟩
    obtain ⟨ks, hks⟩ := List.head?_eq_some_iff.1 hk
    obtain ⟨rfl, -⟩ := Cursor.kind_of_kinds hks
    refine ⟨fun hk => ?_, fun hk => ?_, fun hk => ?_⟩
    · obtain ⟨x, hl⟩ := Lexeme.eq_idShorthand hk
      exact h₁ x hl
    · obtain ⟨x, hl⟩ := Lexeme.eq_classShorthand hk
      exact h₂ x hl
    · exact h₃ (Lexeme.eq_of_kind hk rfl)

theorem OwedHead.readHead {c : Cursor} (hs : EndsItems stop tail) (hc : c.kind.startsTag = true)
    (h : OwedHead tail n c.advance.kinds) :
    ∃ head d, readHead c = .ok (head, d) ∧ OwedBody tail n d.kinds := by
  obtain ⟨as, d, has, hd⟩ := h.attributeRun hs
  obtain ⟨head, hhead⟩ := readHead_eq_map hc
  exact ⟨head as, d, by rw [hhead, has]; rfl, hd⟩

theorem textBlockItems_complete {ks ls : List Kind} {c : Cursor}
    (hks : ∀ k ∈ ks, k = .text ∨ k = .newline) (h : c.kinds = ks ++ .closeTextBlock :: ls) :
    ∃ is d, textBlockItems c = .ok (is, d) ∧ d.kinds = ls := by
  induction ks generalizing c with
  | nil =>
    obtain ⟨hk, -, hadv⟩ := Cursor.kind_of_kinds h
    exact ⟨[], c.advance, textBlockItems_close (Lexeme.eq_of_kind hk rfl), hadv⟩
  | cons k ks ih =>
    obtain ⟨hk, -, hadv⟩ := Cursor.kind_of_kinds h
    obtain ⟨is, d, his, hd⟩ := ih (fun l hl => hks l (List.mem_cons_of_mem _ hl)) hadv
    rcases hks k List.mem_cons_self with rfl | rfl
    · obtain ⟨value, hl⟩ := Lexeme.eq_text hk
      exact ⟨_, d, by rw [textBlockItems_text hl, his]; rfl, hd⟩
    · exact ⟨_, d, by rw [textBlockItems_newline (Lexeme.eq_of_kind hk rfl), his]; rfl, hd⟩

/-- What the parser has to do at a cursor: read all items before `tail`, and a tag of which
    what is left over is still owed. -/
structure Accepts (c : Cursor) : Prop where
  items : ∀ {tail : List Kind} {stop : Kind} (a : Bool), EndsItems stop tail →
    Owed tail 0 c.kinds → ∃ is d, (Goal.items stop a).read c = .ok (is, d) ∧ d.kinds = tail
  tag : ∀ {tail : List Kind} {stop : Kind} {n : Nat}, EndsItems stop tail →
    c.kind.startsTag = true → OwedHead tail n c.advance.kinds →
    ∃ is d, Goal.tag.read c = .ok (is, d) ∧ Owed tail n d.kinds

/-- The parser does so at all later cursors. -/
def AcceptsLater (c : Cursor) : Prop := ∀ d : Cursor, d.rest.length < c.rest.length → Accepts d

/-- A tag takes what can be its body, and then the items nested below can follow. -/
theorem OwedBody.read_inline {b : Cursor} (later : AcceptsLater b) (hs : EndsItems stop tail)
    (h : OwedBody tail n b.kinds) :
    ∃ is d, Goal.inline.read b = .ok (is, d) ∧ Owed tail (n + 1) d.kinds := by
  rcases h.cases with more | ⟨ms, ls, only, more, hb⟩ | ⟨ms, ls, hms, more, hb⟩ | ⟨ls, more, hb⟩
  · -- There need not be a body, but an item that can be one is taken for it.
    by_cases htext : b.kind = .text
    · obtain ⟨value, hl⟩ := Lexeme.eq_text htext
      rw [Cursor.kinds_of_kind htext (by decide)] at more
      exact ⟨_, _, Goal.read_inline_text hl, more.of_text hs⟩
    · refine ⟨[], b, Goal.read_inline_none fun k hk hbk => ?_, more⟩
      have hne : k ≠ .eof := by rintro rfl; simp at hk
      rw [Cursor.kinds_of_kind hbk hne] at more
      have hhead := more.head hs
      rcases (by simpa using hk : k = .colon ∨ k = .openTextBlock ∨ k = .text) with
        rfl | rfl | rfl
      · simp [itemKinds] at hhead
      · simp [itemKinds] at hhead
      · exact htext hbk
  · obtain ⟨hk, hne, hadv⟩ := Cursor.kind_of_kinds hb
    obtain ⟨k, ks, hks, hstart, hhead⟩ := owedHead_of_tag only more
    obtain ⟨hk', -, hadv'⟩ := Cursor.kind_of_kinds (hadv.trans hks)
    have hst : b.advance.kind.startsTag = true := hk' ▸ hstart
    obtain ⟨is, d, his, hd⟩ := (later b.advance (b.advance_lt (hk ▸ hne))).tag hs hst
      (hadv'.symm ▸ hhead)
    exact ⟨is, d, by rw [Goal.read_inline_colon (Lexeme.eq_of_kind hk rfl), if_pos hst, his], hd⟩
  · obtain ⟨hk, -, hadv⟩ := Cursor.kind_of_kinds hb
    obtain ⟨is, d, his, hd⟩ := textBlockItems_complete hms hadv
    exact ⟨is, d, by rw [Goal.read_inline_block (Lexeme.eq_of_kind hk rfl), his], hd ▸ more⟩
  · obtain ⟨hk, -, hadv⟩ := Cursor.kind_of_kinds hb
    obtain ⟨value, hl⟩ := Lexeme.eq_text hk
    exact ⟨_, _, Goal.read_inline_text hl, hadv ▸ more⟩

/-- One run of nested items is read, if there is one. -/
theorem Owed.read_nested {c : Cursor} (later : AcceptsLater c) (hs : EndsItems stop tail)
    (h : Owed tail (n + 1) c.kinds) :
    ∃ is d, Goal.nested.read c = .ok (is, d) ∧ Owed tail n d.kinds := by
  by_cases hi : c.kind = .indent
  · rw [Cursor.kinds_of_kind hi (by decide)] at h
    obtain ⟨ms, ls, hms, more, hadv⟩ := h.of_indent hs
    have hends : EndsItems .outdent (.outdent :: ls) := .inr ⟨⟨ls, rfl⟩, rfl⟩
    obtain ⟨is, d, his, hd⟩ :=
      (later c.advance (c.advance_lt (by simp [hi]))).items false hends (hadv ▸ .items hms)
    obtain ⟨hk, -, hrest⟩ := Cursor.kind_of_kinds hd
    refine ⟨[.block (nestedBlock c.current.span is)], d.advance, ?_, hrest ▸ more⟩
    rw [Goal.read_nested_indent hi, his]
    simp only [Except.bind, Cursor.expect, hk, if_true]
    rfl
  · refine ⟨[], c, Goal.read_nested_none hi, h.of_no_indent fun hhead => ?_⟩
    obtain ⟨ks, hks⟩ := List.head?_eq_some_iff.1 hhead
    exact hi (Cursor.kind_of_kinds hks).1

theorem AcceptsLater.mono {c d : Cursor} (h : AcceptsLater c)
    (hd : d.rest.length ≤ c.rest.length) : AcceptsLater d :=
  fun e he => h e (Nat.lt_of_lt_of_le he hd)

theorem OwedHead.read_tag {c : Cursor} (later : AcceptsLater c) (hs : EndsItems stop tail)
    (hc : c.kind.startsTag = true) (h : OwedHead tail n c.advance.kinds) :
    ∃ is d, Goal.tag.read c = .ok (is, d) ∧ Owed tail n d.kinds := by
  obtain ⟨head, b, hhead, hb⟩ := h.readHead hs hc
  have hle := Nat.le_of_lt (readHead_lt hc hhead)
  obtain ⟨is, d, his, hd⟩ := hb.read_inline (later.mono hle) hs
  obtain ⟨js, e, hjs, he⟩ :=
    hd.read_nested (later.mono (Nat.le_trans (Goal.read_le his) hle)) hs
  have hread := Goal.read_tag hc
  rw [hhead] at hread
  simp only [Except.bind, his, hjs] at hread
  exact ⟨_, e, hread, he⟩

theorem Owed.read_items {c : Cursor} (later : AcceptsLater c) (hs : EndsItems stop tail)
    (a : Bool) (h : Owed tail 0 c.kinds) :
    ∃ is d, (Goal.items stop a).read c = .ok (is, d) ∧ d.kinds = tail := by
  generalize hks : c.kinds = ks at h
  cases h with
  | @items _ ks h =>
    rcases h.items_cases with rfl | ⟨k, ls, hk, rfl, more⟩ | ⟨ms, ls, htag, rfl, more⟩
    · -- Nothing is left but what the items end with.
      refine ⟨[], c, ?_, hks⟩
      rcases hs with ⟨rfl, rfl⟩ | ⟨⟨ls, rfl⟩, rfl⟩
      · have hk := Cursor.kind_of_kinds_nil hks
        rw [Goal.read_items_stop (.inl (Lexeme.eq_of_kind hk rfl)), if_pos hk]
      · have hk := (Cursor.kind_of_kinds hks).1
        rw [Goal.read_items_stop (.inr (Lexeme.eq_of_kind hk rfl)), if_pos hk]
    · obtain ⟨hck, hne, hadv⟩ := Cursor.kind_of_kinds hks
      have next (a : Bool) := (later c.advance (c.advance_lt (hck ▸ hne))).items a hs
        (hadv ▸ .items more)
      rcases hk with rfl | rfl | rfl
      · rw [Goal.read_items_newline (Lexeme.eq_of_kind hck rfl)]
        exact next a
      · obtain ⟨value, hl⟩ := Lexeme.eq_text hck
        obtain ⟨is, d, his, hd⟩ := next true
        exact ⟨_, d, by rw [Goal.read_items_text hl, his]; rfl, hd⟩
      · obtain ⟨value, buffered, hl⟩ := Lexeme.eq_comment hck
        obtain ⟨is, d, his, hd⟩ := next false
        exact ⟨_, d, by rw [Goal.read_items_comment hl, his]; rfl, hd⟩
    · -- After the tag come the other items, and as no tag is open, nothing else.
      have hmore : Owed tail 0 (ls ++ tail) := .items more
      obtain ⟨k, ks, heq, hstart, hhead⟩ := owedHead_of_tag htag hmore
      rw [List.append_assoc, heq] at hks
      obtain ⟨hck, -, hadv⟩ := Cursor.kind_of_kinds hks
      have hc : c.kind.startsTag = true := hck ▸ hstart
      obtain ⟨is, d, his, hd⟩ := (hadv.symm ▸ hhead : OwedHead tail 0 _).read_tag later hs hc
      obtain ⟨js, e, hjs, he⟩ := (later d (Goal.read_tag_lt his)).items false hs hd
      exact ⟨_, e, by rw [Goal.read_items_tag hc, his, Except.bind, hjs]; rfl, he⟩

theorem accepts (c : Cursor) : Accepts c := by
  induction hn : c.rest.length using Nat.strongRecOn generalizing c with
  | ind m ih =>
    subst hn
    have later : AcceptsLater c := fun d hd => ih _ hd d rfl
    exact ⟨fun a hs h => h.read_items later hs a, fun hs hc h => h.read_tag later hs hc⟩

end Complete

/-! ## Documents -/

/-- The parser accepts a list of tokens if and only if the kinds of those before the end
    of the template form a document. -/
theorem Block.ofTokens_ok_iff (tokens : List Token) :
    (∃ block, Block.ofTokens tokens = .ok block) ↔ Derives .items (kindsBeforeEof tokens) := by
  rw [Block.ofTokens_eq]
  constructor
  · rintro ⟨block, h⟩
    obtain ⟨⟨is, d⟩, hread, -⟩ := map_eq_ok_iff.1 h
    have hreads := read_eq_ok_iff.1 hread
    obtain ⟨ks, hks, hc⟩ := hreads.derives
    rw [Cursor.kinds_of_eof hreads.kind_stop, List.append_nil] at hc
    rwa [← hc] at hks
  · intro h
    have howed : Owed [] 0 (Cursor.ofTokens tokens).kinds := by
      have hitems : Owed [] 0 (kindsBeforeEof tokens ++ []) := .items h
      rwa [List.append_nil] at hitems
    obtain ⟨is, d, hread, -⟩ := (accepts (.ofTokens tokens)).items false (.inl ⟨rfl, rfl⟩) howed
    exact ⟨_, by rw [hread]; rfl⟩

end SlotMarkup
