import SlotMarkup.Proofs.ReaderBreaks

/-!
# Scanning loses no words

The words of a text all come to stand in the strings that its tokens carry
(`scan_measure`): whatever is counted in words, the tokens have together what
the text has. This needs that carriage returns occur in line breaks only
(`CrlfOnly`), as after the head of a tag any other ends the line and drops the
rest of it.

Each reader keeps the measure of the text: what it takes, its tokens have.
-/

namespace SlotMarkup

/-! ## Strings of tokens -/

/-- The measures of some strings together. -/
def weigh (μ : List Char → Nat) (ss : List String) : Nat := (ss.map fun s => μ s.toList).sum

@[simp] theorem weigh_nil (μ : List Char → Nat) : weigh μ [] = 0 := rfl

@[simp] theorem weigh_cons (μ : List Char → Nat) (s : String) (ss : List String) :
    weigh μ (s :: ss) = μ s.toList + weigh μ ss := rfl

@[simp] theorem weigh_append (μ : List Char → Nat) (ss ts : List String) :
    weigh μ (ss ++ ts) = weigh μ ss + weigh μ ts := by
  rw [weigh, List.map_append, List.sum_append]
  rfl

/-- Strings weigh nothing together if none of them weighs anything. -/
theorem weigh_eq_zero_iff {μ : List Char → Nat} {ss : List String} :
    weigh μ ss = 0 ↔ ∀ s ∈ ss, μ s.toList = 0 := by
  simp [weigh, List.sum_eq_zero_iff_forall_eq_nat]

/-- The text of an attribute's value. -/
def AttrValue.texts : AttrValue → List String
  | bare => []
  | raw text => [text]

/-- The strings of a lexeme that is not a comment. -/
def Lexeme.contents : Lexeme → List String
  | tag name | idShorthand name | classShorthand name => [name]
  | attr name value => name :: value.texts
  | text value => [value]
  | _ => []

/-- The string of a comment. -/
def Lexeme.comments : Lexeme → List String
  | comment value _ => [value]
  | _ => []

/-- The strings of tokens, those of comments left out. -/
def Token.contents (ts : List Token) : List String := ts.flatMap fun t => t.lexeme.contents

/-- The strings of the comments among tokens. -/
def Token.comments (ts : List Token) : List String := ts.flatMap fun t => t.lexeme.comments

/-- The measure of all strings of some tokens. -/
def Token.weight (μ : List Char → Nat) (ts : List Token) : Nat :=
  weigh μ (Token.contents ts) + weigh μ (Token.comments ts)

section Weight

variable (μ : List Char → Nat)

@[simp] theorem Token.weight_nil : Token.weight μ [] = 0 := rfl

@[simp] theorem Token.weight_append (ts us : List Token) :
    Token.weight μ (ts ++ us) = Token.weight μ ts + Token.weight μ us := by
  simp only [Token.weight, Token.contents, Token.comments, List.flatMap_append, weigh_append]
  omega

theorem Token.weight_cons (t : Token) (ts : List Token) : Token.weight μ (t :: ts) =
    weigh μ t.lexeme.contents + weigh μ t.lexeme.comments + Token.weight μ ts := by
  rw [← List.singleton_append, Token.weight_append]
  simp [Token.weight, Token.contents, Token.comments]

/-- Tokens without strings weigh nothing. -/
theorem Token.weight_eq_zero {ts : List Token}
    (h : ∀ t ∈ ts, t.lexeme.contents = [] ∧ t.lexeme.comments = []) : Token.weight μ ts = 0 := by
  induction ts with
  | nil => rfl
  | cons t ts ih =>
    rw [Token.weight_cons, (h t List.mem_cons_self).1, (h t List.mem_cons_self).2,
      ih fun u hu => h u (List.mem_cons_of_mem _ hu)]
    rfl

end Weight

/-- Carriage returns occur only before line feeds. -/
def CrlfOnly (cs : List Char) : Prop := ∀ ds, '\r' :: ds <:+ cs → ds.head? = some '\n'

/-- Where no return is alone in a text, none is alone in the rest of it. -/
theorem CrlfOnly.of_suffix {cs ds : List Char} (h : CrlfOnly cs) (hd : ds <:+ cs) : CrlfOnly ds :=
  fun es he => h es (he.trans hd)

/-- What follows a later place is an end of what follows an earlier one. -/
theorem Place.Reaches.suffix {p q : Place} (h : p.Reaches q) : q.rest <:+ p.rest := by
  obtain ⟨n, rfl⟩ := h
  exact List.drop_suffix n p.rest

variable {μ : List Char → Nat} (hμ : WordMeasure μ)

include hμ

/-! ## Attributes -/

/-- A name is read whole. The quotes around it are in no word. -/
theorem attributeName_measure {p q : Place} {name : List Char}
    (h : attributeName p = .ok (name, q)) : μ p.rest = μ name + μ q.rest := by
  rw [attributeName] at h
  split at h
  · simp at h
  · rename_i c cs hp
    split at h
    · rename_i hc
      obtain ⟨r, hr, hrq⟩ := map_eq_ok_iff.1 h
      obtain ⟨hname, rfl⟩ := Prod.mk.inj hrq
      have hcw : isWord c = false := by rcases hc with rfl | rfl <;> rfl
      obtain ⟨as, has⟩ := stringEnd_spec hp hr
      -- Between the quotes stands the name, and no quote is in a word.
      have hupTo : (p.drop 1).upTo r = as ++ [c] := Place.upTo_of_quotes (has ▸ hp)
      rw [← hname, hupTo, List.dropLast_concat, hp, hμ.cons hcw, has,
        hμ.append (wordBreak_cons_right hcw), hμ.cons hcw]
    · split at h
      · simp at h
      · obtain ⟨rfl, rfl⟩ := Prod.mk.inj (Except.ok.inj h)
        conv => lhs; rw [← List.take_append_drop (nameLength p.rest) p.rest]
        exact hμ.append (wordBreak_of_head (nameLength_head p.rest))

/-- An equals sign is in no word. -/
theorem equalsEnd?_measure {p q : Place} (h : equalsEnd? p = some q) : μ p.rest = μ q.rest := by
  rw [equalsEnd?.eq_def] at h
  split at h
  · rename_i hp
    obtain rfl := Option.some.inj h
    rw [Place.rest_drop, hp, hμ.cons rfl]
    rfl
  · rename_i hp
    obtain rfl := Option.some.inj h
    rw [Place.rest_drop, hp, hμ.cons rfl, hμ.cons rfl]
    rfl
  · simp at h

/-- A value is read whole, and ends where a word does. -/
theorem attributeValue_measure {p q : Place} {value : List Char}
    (h : attributeValue p = .ok (value, q)) : μ p.rest = μ value + μ q.rest := by
  rw [attributeValue] at h
  split at h
  · simp at h
  · rename_i r hr
    split at h
    · simp at h
    · obtain ⟨rfl, rfl⟩ := Prod.mk.inj (Except.ok.inj h)
      rw [← (reaches_valueEnd hr).append_upTo, hμ.append (wordBreak_of_head (valueEnd_head hr))]

/-- An attribute has the words of its name and of its value. -/
theorem readAttribute_measure {p q : Place} {t : Token} (h : readAttribute p = .ok (t, q)) :
    μ p.rest = Token.weight μ [t] + μ q.rest := by
  rw [readAttribute] at h
  split at h
  · simp at h
  · rename_i name r hr
    have hname := attributeName_measure hμ hr
    split at h
    · obtain ⟨rfl, rfl⟩ := Prod.mk.inj (Except.ok.inj h)
      simp [hname, Token.weight_cons, Token.read, Lexeme.contents, Lexeme.comments,
        AttrValue.texts]
    · rename_i s hs
      obtain ⟨⟨value, u⟩, hv, hu⟩ := map_eq_ok_iff.1 h
      obtain ⟨rfl, rfl⟩ := Prod.mk.inj hu
      have heq := equalsEnd?_measure hμ hs
      have hval := attributeValue_measure hμ hv
      rw [Place.rest_skip, hμ.dropWhile fun _ => isWord_of_isIndent] at heq
      rw [Place.rest_skip, hμ.dropWhile fun _ => isWord_of_isBlank] at hval
      simp only [Token.weight_cons, Token.read, Lexeme.contents, Lexeme.comments, AttrValue.texts,
        weigh_cons, weigh_nil, String.toList_ofList, Token.weight_nil]
      omega

/-- Separators are in no word, so the words of a list are those of its attributes. -/
theorem attributesFrom_measure {start p q : Place} {ts : List Token}
    (h : attributesFrom start p = .ok (ts, q)) : μ p.rest = Token.weight μ ts + μ q.rest := by
  have hskip : ∀ p : Place, μ (p.skip fun c => isBlank c || c == ',').rest = μ p.rest := by
    intro p
    rw [Place.rest_skip, hμ.dropWhile fun _ => isWord_of_gap]
  fun_induction attributesFrom start p generalizing ts with
  | case1 => simp at h
  | case2 p r =>
    rename_i hr
    obtain ⟨rfl, rfl⟩ := Prod.mk.inj (Except.ok.inj h)
    have hp : μ r.rest = μ p.rest := hskip p
    rw [hr, hμ.cons rfl] at hp
    rw [Place.rest_drop, hr, ← hp]
    simp [Token.weight_cons, Token.read, Lexeme.contents, Lexeme.comments]
  | case3 => simp at h
  | case4 p r _ _ hr =>
    rename_i ih
    obtain ⟨us, hus, rfl⟩ := Scan.after_eq_ok_iff.1 h
    rw [← hskip p, readAttribute_measure hμ hr, ih hus, Token.weight_append]
    omega

/-- The parentheses of a list are in no word. -/
theorem attributeList_measure {p q : Place} {ts : List Token} (hp : p.rest.head? = some '(')
    (h : attributeList p = .ok (ts, q)) : μ p.rest = Token.weight μ ts + μ q.rest := by
  obtain ⟨us, hus, rfl⟩ := Scan.after_eq_ok_iff.1 h
  have hrest := attributesFrom_measure hμ hus
  obtain ⟨cs, hcs⟩ := List.head?_eq_some_iff.1 hp
  rw [Place.rest_drop, hcs] at hrest
  rw [hcs, hμ.cons rfl]
  simpa [Token.weight_cons, Token.read, Lexeme.contents, Lexeme.comments] using hrest

/-! ## Heads -/

/-- A shorthand has the words of its name, and its sigil is in none. -/
theorem shorthand?_measure {p q : Place} {t : Token} (h : shorthand? p = some (t, q)) :
    μ p.rest = Token.weight μ [t] + μ q.rest := by
  obtain ⟨sigil, f, cs, hf, hp, -, ht, hq⟩ := shorthand?_eq_some h
  have hbreak := hμ.append (wordBreak_takeWhile uniform_isNamePart cs)
  rw [List.takeWhile_append_dropWhile] at hbreak
  have hw : Token.weight μ [t] = μ (cs.takeWhile isNamePart) := by
    rw [sigil?.eq_def] at hf
    split at hf
    · obtain rfl := Option.some.inj hf
      simp [Token.weight_cons, ht, Lexeme.contents, Lexeme.comments]
    · obtain rfl := Option.some.inj hf
      simp [Token.weight_cons, ht, Lexeme.contents, Lexeme.comments]
    · simp at hf
  rw [hp, hμ.cons (isWord_of_sigil? hf), hbreak, hw, hq]

/-- Shorthands and lists have the words of the text they are read from. -/
theorem tagParts_measure {p q : Place} {ts : List Token} (h : tagParts p = .ok (ts, q)) :
    μ p.rest = Token.weight μ ts + μ q.rest := by
  fun_induction tagParts p generalizing ts with
  | case1 p t r hs ih =>
    obtain ⟨us, hus, rfl⟩ := Scan.after_eq_ok_iff.1 h
    rw [shorthand?_measure hμ hs, ih hus, Token.weight_append]
    omega
  | case2 => simp at h
  | case3 p _ hp us r hl ih =>
    obtain ⟨vs, hvs, rfl⟩ := Scan.after_eq_ok_iff.1 h
    rw [attributeList_measure hμ hp hl, ih hvs, Token.weight_append]
    omega
  | case4 =>
    obtain ⟨rfl, rfl⟩ := Prod.mk.inj (Except.ok.inj h)
    simp

/-- A head has the words of the tag's name and of the parts behind it. -/
theorem tagHead_measure {p q : Place} {ts : List Token} (h : tagHead p = .ok (ts, q)) :
    μ p.rest = Token.weight μ ts + μ q.rest := by
  rw [tagHead] at h
  split at h
  · rename_i name hname
    dsimp only at h
    split at h
    · simp at h
    · obtain ⟨us, hus, rfl⟩ := Scan.after_eq_ok_iff.1 h
      obtain ⟨ds, hds, hb⟩ := wordBreak_tagName? hname
      have hrest := tagParts_measure hμ hus
      rw [Place.rest_drop, hds, List.drop_left] at hrest
      rw [hds, hμ.append hb, hrest, Token.weight_append]
      simp [Token.weight_cons, Token.read, Lexeme.contents, Lexeme.comments, Nat.add_assoc]
  · split at h
    · rename_i t r hs
      obtain ⟨us, hus, rfl⟩ := Scan.after_eq_ok_iff.1 h
      rw [shorthand?_measure hμ hs, tagParts_measure hμ hus, Token.weight_append]
      omega
    · simp at h

/-! ## Lines -/

/-- A text has the words of its first line and of the lines after it. -/
theorem nextLine_measure (p : Place) : μ p.rest = μ p.line + μ p.nextLine.rest := by
  have hb : WordBreak p.line (lineBreak p ++ p.nextLine.rest) := wordBreak_of_head fun c hc => by
    rcases lineBreak_head p c hc with rfl | rfl <;> rfl
  conv => lhs; rw [← p.line_append_nextLine]
  rw [hμ.append hb, hμ.append_of_noWord (noWord_lineBreak p)]

/-- A blank line has no words. -/
theorem nextLine_measure_of_blank {p : Place} (h : isBlankText p.line = true) :
    μ p.rest = μ p.nextLine.rest := by
  rw [nextLine_measure hμ, hμ.of_noWord (noWord_of_isBlankText h), Nat.zero_add]

/-- The lines of a nested run hold what stands before the line after them. -/
theorem nestedRun_measure (base : Nat) (p : Place) :
    μ p.rest = ((nestedRun base p).1.map fun q => μ q.line).sum + μ (nestedRun base p).2.rest := by
  fun_induction nestedRun base p with
  | case1 => simp
  | case2 p _ _ lines next h ih =>
    rw [h] at ih
    rw [nextLine_measure hμ p, ih, List.map_cons, List.sum_cons, Nat.add_assoc]
  | case3 => simp

/-- Only blank lines are dropped at the end of a run. -/
theorem dropTrailing_measure (run : List Place) :
    ((dropTrailing (fun q => isBlankText q.line) run).map fun q => μ q.line).sum =
      (run.map fun q => μ q.line).sum := by
  have hdropped : ∀ qs : List Place, (∀ q ∈ qs, isBlankText q.line = true) →
      (qs.map fun q => μ q.line).sum = 0 := by
    intro qs hqs
    refine List.sum_eq_zero_iff_forall_eq_nat.2 fun n hn => ?_
    obtain ⟨q, hq, rfl⟩ := List.mem_map.1 hn
    exact hμ.of_noWord (noWord_of_isBlankText (hqs q hq))
  conv => rhs; rw [← dropTrailing_append_takeWhile (fun q => isBlankText q.line) run]
  rw [List.map_append, List.sum_append, Nat.left_eq_add]
  exact hdropped _ fun q hq =>
    mem_takeWhile (f := fun q : Place => isBlankText q.line) (List.mem_reverse.1 hq)

/-- A line loses no more than indentation. -/
theorem stripLine_measure {width : Nat} {q : Place}
    (h : isBlankText q.line = false → width ≤ q.indent) :
    μ (stripLine width q).chars = μ q.line := by
  rw [stripLine_chars h]
  split
  · rename_i hb
    rw [hμ.nil, hμ.of_noWord (noWord_of_isBlankText hb)]
  · rename_i hb
    have hw := h (by simpa using hb)
    rw [← q.indentWidth_line] at hw
    rw [← hμ.append_of_noWord (noWord_take_indent hw), List.take_append_drop]

/-- Collecting nested lines loses blank lines and indentation, but no word. -/
theorem nestedLines_measure {base : Nat} {p next : Place} {lines : List Stretch}
    (h : nestedLines base p = (lines, next)) :
    μ p.rest = (lines.map fun s => μ s.chars).sum + μ next.rest := by
  obtain ⟨rfl, rfl⟩ := Prod.mk.inj h
  rw [nestedRun_measure hμ base p, ← dropTrailing_measure hμ, List.map_map]
  refine congrArg (List.sum · + _) (List.map_congr_left fun q hq => ?_)
  refine (stripLine_measure hμ fun hb => List.min?_getD_le_of_mem ?_).symm
  exact List.mem_map_of_mem (List.mem_filter.2 ⟨hq, by simp [hb]⟩)

/-! ## Bodies -/

/-- The line of a text block is in its token, if it has one. -/
theorem textLineTokens_measure (l : Stretch) : Token.weight μ (textLineTokens l) = μ l.chars := by
  rw [textLineTokens]
  split
  · rename_i h
    rw [h, hμ.nil, Token.weight_nil]
  · simp [Token.weight_cons, Lexeme.contents, Lexeme.comments]

/-- The tokens of a text block have the words of its lines, and its line breaks none. -/
theorem textLinesTokens_measure (lines : List Stretch) :
    Token.weight μ (textLinesTokens lines) = (lines.map fun s => μ s.chars).sum := by
  induction lines with
  | nil => rfl
  | cons l lines ih =>
    rw [textLinesTokens, Token.weight_cons, Token.weight_append, textLineTokens_measure hμ, ih,
      List.map_cons, List.sum_cons]
    simp [Lexeme.contents, Lexeme.comments]

/-- A text block has the words of the lines nested below it. -/
theorem textBlock_measure {indent : Nat} {p q : Place} {ts : List Token}
    (h : textBlock indent p = (ts, q)) : μ p.nextLine.rest = Token.weight μ ts + μ q.rest := by
  rw [textBlock] at h
  cases hn : nestedLines indent p.nextLine with
  | mk lines next =>
    rw [hn] at h
    obtain ⟨rfl, rfl⟩ := Prod.mk.inj h
    rw [nestedLines_measure hμ hn, Token.weight_cons, Token.weight_append, Token.weight_cons]
    cases lines with
    | nil => simp [Token.read, Lexeme.contents, Lexeme.comments]
    | cons l lines =>
      simp only [Token.weight_append, textLineTokens_measure hμ, textLinesTokens_measure hμ]
      simp [Token.read, Lexeme.contents, Lexeme.comments]

/-- A line break that is no lone carriage return hides nothing. -/
theorem atLineEnd_measure {p : Place} (hcr : CrlfOnly p.rest) (h : atLineEnd p = true) :
    μ p.rest = μ p.nextLine.rest := by
  have hline : p.line = [] := by
    rw [atLineEnd] at h
    split at h
    · rename_i hp
      simp [Place.line, hp]
    · rename_i c cs hp
      rcases Bool.or_eq_true _ _ ▸ h with hc | hc
      · simp [Place.line, hp, beq_iff_eq.1 hc]
      · rw [beq_iff_eq.1 hc] at hp
        -- A line feed comes right after the carriage return.
        obtain ⟨ds, rfl⟩ := List.head?_eq_some_iff.1 (hcr cs (hp ▸ List.suffix_rfl))
        simp [Place.line, hp]
  rw [nextLine_measure hμ, hline, hμ.nil, Nat.zero_add]

/-- A text behind a head is kept, and so is a text block. What else may follow a head has no
    words, as no stray return hides any. -/
theorem tagBody_measure {indent : Nat} {p q : Place} {ts : List Token} (hcr : CrlfOnly p.rest)
    (h : tagBody indent p = .ok (ts, q)) : μ p.rest = Token.weight μ ts + μ q.rest := by
  -- The character at `p` is in no word, and what follows it on the line is blank.
  have hblank : ∀ {c cs}, p.rest = c :: cs → isWord c = false → c ≠ '\n' →
      restIsBlank (p.drop 1) = true → μ p.rest = μ p.nextLine.rest := by
    intro c cs hp hc hn hb
    rw [← Place.nextLine_drop_one hp hn, ← nextLine_measure_of_blank hμ hb, Place.rest_drop, hp,
      hμ.cons hc]
    rfl
  rw [tagBody] at h
  split at h
  · rename_i hend
    obtain ⟨rfl, rfl⟩ := Prod.mk.inj (Except.ok.inj h)
    rw [atLineEnd_measure hμ hcr hend, Token.weight_nil, Nat.zero_add]
  · split at h
    · rename_i hp
      split at h
      · rename_i hb
        rw [hblank hp rfl (by decide) hb, textBlock_measure hμ (Except.ok.inj h)]
      · simp at h
    · rename_i cs hp
      dsimp only at h
      split at h
      · rename_i hb
        obtain ⟨rfl, rfl⟩ := Prod.mk.inj (Except.ok.inj h)
        rw [hblank hp rfl (by decide) hb, Token.weight_nil, Nat.zero_add]
      · -- After the space, all of the line is the text.
        obtain ⟨rfl, rfl⟩ := Prod.mk.inj (Except.ok.inj h)
        have hnext := nextLine_measure hμ (p.drop 1)
        rw [Place.nextLine_drop_one hp (by decide), Place.rest_drop, hp] at hnext
        rw [hp, hμ.cons rfl]
        simpa [Token.weight_cons, Token.read, Lexeme.contents, Lexeme.comments] using hnext
    · rename_i hp
      split at h
      · rename_i hb
        obtain ⟨rfl, rfl⟩ := Prod.mk.inj (Except.ok.inj h)
        rw [hblank hp rfl (by decide) hb, Token.weight_nil, Nat.zero_add]
      · simp at h
    all_goals simp at h

/-- A line of tags has the words of its heads and of what follows the last. -/
theorem tagLine_measure {indent : Nat} {p q : Place} {ts : List Token} (hcr : CrlfOnly p.rest)
    (h : tagLine indent p = .ok (ts, q)) : μ p.rest = Token.weight μ ts + μ q.rest := by
  fun_induction tagLine indent p generalizing ts with
  | case1 => simp at h
  | case2 => simp at h
  | case3 p head r hp =>
    rename_i hcolon s _ ih
    obtain ⟨us, hus, rfl⟩ := Scan.after_eq_ok_iff.1 h
    obtain ⟨cs, hcs⟩ := List.head?_eq_some_iff.1 hcolon
    have hr : p.Reaches r := (tagHead_reaches hp).1
    have hs : p.Reaches s := hr.trans r.reaches_innerTag
    -- Between the colon and the next tag there is only indentation.
    have hrs : μ r.rest = μ s.rest := by
      rw [Place.rest_skip, hμ.dropWhile fun _ => isWord_of_isIndent, Place.rest_drop, hcs,
        hμ.cons rfl]
      rfl
    rw [tagHead_measure hμ hp, hrs, ih (hcr.of_suffix hs.suffix) hus, Token.weight_append,
      Token.weight_append]
    simp [Token.weight_cons, Token.read, Lexeme.contents, Lexeme.comments, Nat.add_assoc]
  | case4 p head r hp =>
    obtain ⟨us, hus, rfl⟩ := Scan.after_eq_ok_iff.1 h
    have hr := (tagHead_reaches hp).1
    rw [tagHead_measure hμ hp, tagBody_measure hμ (hcr.of_suffix hr.suffix) hus,
      Token.weight_append, Nat.add_assoc]

/-! ## Texts -/

/-- A piped line is kept but for its bar and a space. -/
theorem pipedLine_measure {p q : Place} {cs : List Char} {ts : List Token} (hp : p.rest = '|' :: cs)
    (h : pipedLine p = (ts, q)) : μ p.rest = Token.weight μ ts + μ q.rest := by
  have hbar : μ p.line = μ (p.drop 1).line := by
    rw [Place.line_cons hp (by decide) (by decide), hμ.cons rfl]
  rw [pipedLine] at h
  obtain ⟨rfl, rfl⟩ := Prod.mk.inj h
  rw [nextLine_measure hμ p, hbar]
  split
  · rename_i hl
    rw [hl, hμ.cons rfl]
    simp [Token.weight_cons, Token.read, Lexeme.contents, Lexeme.comments]
  · simp [Token.weight_cons, Token.read, Lexeme.contents, Lexeme.comments]

/-- A line of literal markup is kept as it is. -/
theorem literalLine_measure {p q : Place} {ts : List Token} (h : literalLine p = (ts, q)) :
    μ p.rest = Token.weight μ ts + μ q.rest := by
  obtain ⟨rfl, rfl⟩ := Prod.mk.inj h
  rw [nextLine_measure hμ p]
  simp [Token.weight_cons, Token.read, Lexeme.contents, Lexeme.comments]

/-- Lines that are joined by line feeds have the words they had apart. -/
theorem joinedLines_measure (first : List Char) (lines : List Stretch) :
    μ (first ++ lines.flatMap fun s => '\n' :: s.chars) =
      μ first + (lines.map fun s => μ s.chars).sum := by
  induction lines generalizing first with
  | nil => simp
  | cons l lines ih =>
    rw [List.flatMap_cons, List.cons_append, hμ.append (wordBreak_cons_right rfl), hμ.cons rfl, ih,
      List.map_cons, List.sum_cons]

/-- A comment has the words of its line and of those nested below it. -/
theorem commentLines_measure {indent : Nat} {p q : Place} {cs : List Char} {ts : List Token}
    (hp : p.rest = '/' :: '/' :: cs) (h : commentLines indent p = (ts, q)) :
    μ p.rest = Token.weight μ ts + μ q.rest := by
  -- What the first line loses are the slashes and possibly a hyphen.
  have hfirst :
      μ (p.line.drop (if (p.rest.drop 2).head? != some '-' then 2 else 3)) = μ p.line := by
    rw [Place.line_comment hp, hμ.cons rfl, hμ.cons rfl]
    split
    · rfl
    · rename_i hy
      have hy' : (p.drop 2).rest.head? = some '-' := by simpa using hy
      obtain ⟨ds, hds⟩ := List.head?_eq_some_iff.1 hy'
      rw [Place.line_cons hds (by decide) (by decide)]
      exact (hμ.cons rfl _).symm
  rw [commentLines] at h
  cases hn : nestedLines indent p.nextLine with
  | mk lines next =>
    rw [hn] at h
    obtain ⟨rfl, rfl⟩ := Prod.mk.inj h
    rw [nextLine_measure hμ p, nestedLines_measure hμ hn, ← hfirst]
    simp only [Token.weight_cons, Token.read, Lexeme.contents, Lexeme.comments, weigh_nil,
      weigh_cons, String.toList_ofList, Token.weight_nil, joinedLines_measure hμ, trimLeft,
      hμ.dropWhile fun _ => isWord_of_isSpace]
    omega

/-- Whatever a line is, its tokens have the words of it and of the lines read with it. -/
theorem lineContent_measure {indent : Nat} {p q : Place} {ts : List Token} (hcr : CrlfOnly p.rest)
    (h : lineContent indent p = .ok (ts, q)) : μ p.rest = Token.weight μ ts + μ q.rest := by
  rw [lineContent] at h
  split at h
  · rename_i hp
    exact commentLines_measure hμ hp (Except.ok.inj h)
  · simp at h
  · rename_i hp
    exact pipedLine_measure hμ hp (Except.ok.inj h)
  · exact literalLine_measure hμ (Except.ok.inj h)
  · simp at h
  · simp at h
  · simp at h
  · exact tagLine_measure hμ hcr h

/-- The words of all lines together are those of all tokens together. The induction is on how
    lines are scanned, one case for each kind of line. -/
theorem scanLines_measure {levels : List Nat} {first : Bool} {p : Place} {ts : List Token}
    (hcr : CrlfOnly p.rest) (h : scanLines levels first p = .ok ts) :
    μ p.rest = Token.weight μ ts := by
  fun_induction scanLines levels first p generalizing ts with
  | case1 levels _ p hp =>
    obtain rfl := Except.ok.inj h
    rw [hp, hμ.nil, closing, Token.weight_append,
      Token.weight_eq_zero _ (by simp [Lexeme.contents, Lexeme.comments])]
    rfl
  | case2 levels first p hp hb ih =>
    -- A blank line is skipped.
    rw [nextLine_measure_of_blank hμ hb]
    exact ih (hcr.of_suffix p.reaches_nextLine.suffix) h
  | case3 => simp at h
  | case4 => simp at h
  | case5 => simp at h
  | case6 levels first p _ _ start _ opening inner hopen content next hcontent =>
    rename_i ih
    obtain ⟨more, hmore, rfl⟩ := map_eq_ok_iff.1 h
    -- The indentation of the line and the lexemes that open it hold no word.
    have hstart : μ p.rest = μ start.rest := by
      rw [Place.rest_drop, Place.indent, indentWidth, drop_length_takeWhile,
        hμ.dropWhile fun _ => isWord_of_isIndent]
    have hs : CrlfOnly start.rest := hcr.of_suffix (p.reaches_drop _).suffix
    have hopening : Token.weight μ (opening.map fun l => ⟨l, start.point⟩) = 0 := by
      refine Token.weight_eq_zero _ fun t ht => ?_
      obtain ⟨l, hl, rfl⟩ := List.mem_map.1 ht
      rcases mem_opening hopen hl with rfl | rfl | rfl <;> exact ⟨rfl, rfl⟩
    rw [hstart, lineContent_measure hμ hs hcontent,
      ih (hs.of_suffix (lineContent_reaches hcontent).1.suffix) hmore, Token.weight_append,
      Token.weight_append, hopening]
    omega

/-- The words of a text are those of its tokens. -/
theorem scan_measure {text : String} {ts : List Token} (hcr : CrlfOnly text.toList)
    (h : Token.scan text = .ok ts) : μ text.toList = Token.weight μ ts :=
  scanLines_measure hμ hcr h

end SlotMarkup
