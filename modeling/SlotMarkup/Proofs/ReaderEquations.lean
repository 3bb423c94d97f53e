import SlotMarkup.Proofs.ReaderBreaks

/-!
# Equations of the readers

What a reader does next is decided by the next characters. Readers that go on until the
text ends are defined by recursion on what is left of it; here are their equations, one
for each way the text can go on, by which a reading is followed without opening the
definitions.

* `valueEnd_cons`: a raw value, by its next character;
* `attributesFrom_nil`, `attributesFrom_close`, `attributesFrom_attr`: a list of attributes,
  by what stands behind the next separators;
* `tagParts_shorthand`, `tagParts_list`, `tagParts_end`: the parts of a head;
* `tagLine_eq_bind`: the tags of a line;
* `OpensHead.lineContent`: a line, if a tag starts there;
* `scanLines_end`, `scanLines_blank`, `scanLines_content`: a text, by its first line.
-/

namespace SlotMarkup

/-! ## Strings and values -/

/-- Quotes are no part of a line break and escape nothing. -/
def IsQuote (c : Char) : Prop := c = '\'' ∨ c = '"' ∨ c = '\x60'

instance (c : Char) : Decidable (IsQuote c) := inferInstanceAs (Decidable (_ ∨ _ ∨ _))

theorem IsQuote.ne {c : Char} (h : IsQuote c) : c ≠ '\\' ∧ c ≠ '\n' ∧ c ≠ '\r' := by
  rcases h with rfl | rfl | rfl <;> decide

/-- A string goes on over all other characters. -/
theorem quotedLength?_cons {quote c : Char} (h : c ≠ '\\') (hc : c ≠ quote) (cs : List Char) :
    quotedLength? quote (c :: cs) = (quotedLength? quote cs).map (· + 1) := by
  rw [quotedLength?.eq_def]
  split <;> simp_all

/-- A string ends at the first quote of its kind. -/
theorem quotedLength?_quote {quote : Char} (hesc : quote ≠ '\\') (cs : List Char) :
    quotedLength? quote (quote :: cs) = some 1 := by
  rw [quotedLength?.eq_def]
  split <;> simp_all

/-- A string goes on for characters that are neither its quote nor a backslash. -/
theorem quotedLength?_plain {quote : Char} {ds : List Char}
    (h : ∀ d ∈ ds, d ≠ '\\' ∧ d ≠ quote) (cs : List Char) :
    quotedLength? quote (ds ++ cs) = (quotedLength? quote cs).map (ds.length + ·) := by
  induction ds with
  | nil => simp
  | cons d ds ih =>
    obtain ⟨hesc, hd⟩ := h d List.mem_cons_self
    rw [List.cons_append, quotedLength?_cons hesc hd,
      ih fun e he => h e (List.mem_cons_of_mem d he), Option.map_map]
    exact congrArg (Option.map · _) (funext fun n => by simp [Nat.add_right_comm])

/-- A value ends with the text. -/
theorem valueEnd_nil {depth : Nat} {p : Place} (hp : p.rest = []) : valueEnd depth p = .ok p := by
  rw [valueEnd.eq_def]
  split
  · rfl
  · simp_all

/-- What a value does at each character: it passes strings as a whole, counts brackets, and ends
    outside of them at a separator or at a bracket that it did not open. -/
theorem valueEnd_cons {depth : Nat} {p : Place} {c : Char} {cs : List Char}
    (hp : p.rest = c :: cs) :
    valueEnd depth p =
      if c = '\'' ∨ c = '"' ∨ c = '\x60' then (stringEnd c p).bind (valueEnd depth)
      else if c = '(' ∨ c = '[' ∨ c = '\x7b' then valueEnd (depth + 1) (p.drop 1)
      else if c = ')' ∨ c = ']' ∨ c = '\x7d' then
        if depth = 0 then .ok p else valueEnd (depth - 1) (p.drop 1)
      else if depth = 0 ∧ (c = ',' ∨ isBlank c) then .ok p
      else valueEnd depth (p.drop 1) := by
  rw [valueEnd.eq_def]
  split
  · rename_i hnil
    simp [hp] at hnil
  · rename_i d ds hd
    obtain ⟨rfl, rfl⟩ := List.cons.inj (hp.symm.trans hd)
    cases hq : stringEnd c p <;> rfl

/-- Within brackets a value goes on over blanks. -/
theorem valueEnd_blank {depth : Nat} {p : Place} {c : Char} {cs : List Char} (hc : isBlank c = true)
    (hp : p.rest = c :: cs) :
    valueEnd depth p = if depth = 0 then .ok p else valueEnd depth (p.drop 1) := by
  have hne {d : Char} (hd : isBlank d = false) : c ≠ d := by
    rintro rfl
    simp [hc] at hd
  rw [valueEnd_cons hp, if_neg, if_neg, if_neg]
  · simp [hc]
  all_goals
    rintro (rfl | rfl | rfl)
    all_goals exact hne rfl rfl

/-! ## Attributes -/

/-- A name is in quotes, or goes on up to a character that ends it. -/
theorem attributeName_cons {p : Place} {c : Char} {cs : List Char} (hp : p.rest = c :: cs) :
    attributeName p =
      if c = '\'' ∨ c = '"' then (stringEnd c p).map fun q => (((p.drop 1).upTo q).dropLast, q)
      else if nameLength p.rest = 0 then .error (.unexpected p)
      else .ok (p.rest.take (nameLength p.rest), p.drop (nameLength p.rest)) := by
  rw [attributeName]
  split
  · rename_i hnil
    simp [hp] at hnil
  · rename_i d ds hd
    obtain ⟨rfl, rfl⟩ := List.cons.inj (hp.symm.trans hd)
    rfl

/-- What stands between attributes. -/
def isSeparator (c : Char) : Bool := isBlank c || c == ','

/-- A name goes on for characters that do not end it. -/
theorem nameLength_plain {ds : List Char}
    (h : ∀ d ∈ ds, isSeparator d = false ∧ d ∉ ['(', ')', '=', '!']) (cs : List Char) :
    nameLength (ds ++ cs) = ds.length + nameLength cs := by
  induction ds with
  | nil => simp
  | cons d ds ih =>
    obtain ⟨hsep, hend⟩ := h d List.mem_cons_self
    simp only [isSeparator, Bool.or_eq_false_iff, beq_eq_false_iff_ne] at hsep
    simp only [List.mem_cons, List.not_mem_nil, or_false, not_or] at hend
    rw [List.cons_append, nameLength, if_neg (by simp [hsep, hend]), if_neg (by simp [hend]),
      ih fun e he => h e (List.mem_cons_of_mem d he), List.length_cons]
    omega

/-- A list has to be closed. -/
theorem attributesFrom_nil {start p : Place} (h : (p.skip isSeparator).rest = []) :
    attributesFrom start p =
      .error (.between .unterminatedAttributes start (p.skip isSeparator)) := by
  rw [attributesFrom.eq_def]
  dsimp only
  split
  · rfl
  · rename_i hcs
    exact absurd (h.symm.trans hcs) (by simp)
  · rename_i hnil _
    exact absurd h hnil

/-- A list ends at its closing parenthesis. -/
theorem attributesFrom_close {start p : Place} {cs : List Char}
    (h : (p.skip isSeparator).rest = ')' :: cs) : attributesFrom start p =
      .ok ([.read .closeAttributes (p.skip isSeparator) ((p.skip isSeparator).drop 1)],
        (p.skip isSeparator).drop 1) := by
  rw [attributesFrom.eq_def]
  dsimp only
  split
  · rename_i hcs
    exact absurd (hcs.symm.trans h) (by simp)
  · rfl
  · rename_i hclose
    exact absurd h (hclose cs)

/-- Before the end of a list there is an attribute, and the list goes on behind it. -/
theorem attributesFrom_attr {start p : Place} (hne : (p.skip isSeparator).rest ≠ [])
    (hclose : (p.skip isSeparator).rest.head? ≠ some ')') :
    attributesFrom start p = (readAttribute (p.skip isSeparator)).bind fun r =>
      (attributesFrom start r.2).after [r.1] := by
  rw [attributesFrom.eq_def]
  dsimp only
  split
  · exact absurd ‹_› hne
  · rename_i hcs
    exact absurd (congrArg List.head? hcs) hclose
  · split
    · rename_i he
      rw [show readAttribute (p.skip isSeparator) = _ from he]
      rfl
    · rename_i hr
      rw [show readAttribute (p.skip isSeparator) = _ from hr]
      rfl

/-! ## Heads -/

/-- A sigil before a character of names starts a shorthand. -/
theorem shorthand?_of_sigil {p : Place} {sigil : Char} {f : String → Lexeme} {cs : List Char}
    (hf : sigil? sigil = some f) (hp : p.rest = sigil :: cs)
    (hpart : ∃ c ∈ cs.head?, isNamePart c = true) : ∃ t q, shorthand? p = some (t, q) ∧
      t.lexeme = f (String.ofList (cs.takeWhile isNamePart)) ∧
      q.rest = cs.dropWhile isNamePart := by
  obtain ⟨c, hc, hpart⟩ := hpart
  obtain ⟨ds, rfl⟩ := List.head?_eq_some_iff.1 hc
  have hs : ∃ t q, shorthand? p = some (t, q) := by
    simp only [shorthand?, hp, hf, if_pos hpart]
    exact ⟨_, _, rfl⟩
  obtain ⟨t, q, hs⟩ := hs
  obtain ⟨sigil', f', cs', hf', hp', -, ht, hq⟩ := shorthand?_eq_some hs
  obtain ⟨rfl, rfl⟩ := List.cons.inj (hp.symm.trans hp')
  obtain rfl := Option.some.inj (hf.symm.trans hf')
  exact ⟨t, q, hs, ht, hq⟩

/-- Without a sigil there is no shorthand. -/
theorem shorthand?_eq_none {p : Place} (h : ∀ c ∈ p.rest.head?, sigil? c = none) :
    shorthand? p = none := by
  rw [shorthand?]
  split
  · rename_i hp
    rw [h _ (by rw [hp]; rfl)]
  · rfl

/-- A head goes on behind a shorthand. -/
theorem tagParts_shorthand {p q : Place} {t : Token} (hs : shorthand? p = some (t, q)) :
    tagParts p = (tagParts q).after [t] := by
  rw [tagParts]
  split
  · rename_i hs'
    obtain ⟨rfl, rfl⟩ := Prod.mk.inj (Option.some.inj (hs.symm.trans hs'))
    rfl
  · rename_i hs'
    simp [hs] at hs'

/-- A head goes on behind a list of attributes. -/
theorem tagParts_list {p : Place} (hs : shorthand? p = none) (hp : p.rest.head? = some '(') :
    tagParts p = (attributeList p).bind fun r => (tagParts r.2).after r.1 := by
  rw [tagParts]
  split
  · rename_i hs'
    simp [hs] at hs'
  · rw [dif_pos hp]
    split
    · rename_i he
      rw [he, Except.bind]
    · rename_i hl
      rw [hl, Except.bind]

theorem tagParts_end {p : Place} (hs : shorthand? p = none) (hp : ¬p.rest.head? = some '(') :
    tagParts p = .ok ([], p) := by
  rw [tagParts]
  split
  · rename_i hs'
    simp [hs] at hs'
  · rw [dif_neg hp]

/-- A head ends where neither a shorthand nor a list can start. -/
theorem tagParts_of_head {p : Place} (h : ∀ c ∈ p.rest.head?, sigil? c = none ∧ c ≠ '(') :
    tagParts p = .ok ([], p) :=
  tagParts_end (shorthand?_eq_none fun c hc => (h c hc).1) fun hp => (h _ hp).2 rfl

/-! ## Lines -/

/-- A line of tags is a head, and behind it a colon with further tags or what ends the line. -/
theorem tagLine_eq_bind (indent : Nat) (p : Place) : tagLine indent p = (tagHead p).bind fun r =>
    if r.2.rest.head? = some ':' then
      if atLineEnd ((r.2.drop 1).skip isIndent) then
        .error (.here .expectedTag ((r.2.drop 1).skip isIndent))
      else (tagLine indent ((r.2.drop 1).skip isIndent)).after
        (r.1 ++ [.read .colon r.2 (r.2.drop 1)])
    else (tagBody indent r.2).after r.1 := by
  rw [tagLine]
  split
  · rename_i hp
    rw [hp]
    rfl
  · rename_i hp
    rw [hp]
    rfl

/-- Behind a colon the line goes on with the tag in this one. -/
theorem tagLine_colon {indent : Nat} {p q : Place} {head : List Token}
    (h : tagHead p = .ok (head, q)) (hq : q.rest.head? = some ':')
    (hend : atLineEnd ((q.drop 1).skip isIndent) = false) :
    tagLine indent p = (tagLine indent ((q.drop 1).skip isIndent)).after
      (head ++ [.read .colon q (q.drop 1)]) := by
  rw [tagLine_eq_bind, h, Except.bind, if_pos hq, if_neg (by simp [hend])]

/-- Without a colon after it, the head of a tag is followed by the body. -/
theorem tagLine_body {indent : Nat} {p q : Place} {head : List Token}
    (h : tagHead p = .ok (head, q)) (hq : ¬q.rest.head? = some ':') :
    tagLine indent p = (tagBody indent q).after head := by
  rw [tagLine_eq_bind, h, Except.bind, if_neg hq]

/-! ## Lines of tags -/

/-- A character that the head of a tag can start with. -/
def OpensHead (c : Char) : Prop := isWord c = true ∨ c = '#' ∨ c = '.'

section OpensHead

variable {p q : Place} {ts : List Token} {c : Char} {cs : List Char}

/-- A head starts with a character of words or with a sigil. -/
theorem tagHead_start (h : tagHead p = .ok (ts, q)) : ∃ c cs, p.rest = c :: cs ∧ OpensHead c := by
  rw [tagHead] at h
  split at h
  · rename_i name hname
    rw [tagName?] at hname
    split at hname
    · rename_i hword
      cases hp : p.rest with
      | nil => simp [hp] at hword
      | cons c cs => exact ⟨c, cs, rfl, .inl (by simpa [hp] using hword)⟩
    · simp at hname
  · split at h
    · rename_i t r hs
      obtain ⟨sigil, f, cs, hf, hp, -⟩ := shorthand?_eq_some hs
      refine ⟨sigil, cs, hp, .inr ?_⟩
      rw [sigil?.eq_def] at hf
      split at hf
      · exact .inl rfl
      · exact .inr rfl
      · simp at hf
    · simp at h

/-- A line of tags starts as the first head does. -/
theorem tagLine_start {indent : Nat} (h : tagLine indent p = .ok (ts, q)) :
    ∃ c cs, p.rest = c :: cs ∧ OpensHead c := by
  cases hhead : tagHead p with
  | error e => simp [tagLine_eq_bind, hhead, Except.bind] at h
  | ok r => exact tagHead_start hhead

namespace OpensHead

/-- No blank opens a head. -/
theorem not_blank (h : OpensHead c) : isBlank c = false := by
  rcases h with hw | rfl | rfl
  · exact Bool.eq_false_iff.2 fun hb => by simp [isWord_of_isBlank hb] at hw
  · rfl
  · rfl

variable (hc : OpensHead c) (hp : p.rest = c :: cs)
include hc hp

/-- What starts a head starts a line of no other kind. -/
theorem lineContent (indent : Nat) : lineContent indent p = tagLine indent p := by
  rw [SlotMarkup.lineContent]
  split
  case h_8 => rfl
  all_goals
    rename_i hq
    rw [hp] at hq
    obtain ⟨rfl, -⟩ := List.cons.inj hq
    simp [OpensHead, isWord] at hc

/-- Where a head starts, there is no indentation left. -/
theorem takeWhile_isIndent : p.rest.takeWhile isIndent = [] := by
  rw [hp]
  exact List.takeWhile_cons_of_neg fun hi =>
    absurd (hc.not_blank.symm.trans (isBlank_of_isIndent hi)) (by simp)

/-- A line on which a head starts is not blank. -/
theorem not_blank_line : isBlankText p.line = false := by
  have hne {d : Char} (hd : isBlank d = true) : c ≠ d := by
    rintro rfl
    exact absurd (hc.not_blank.symm.trans hd) (by simp)
  rw [Place.line_cons hp (hne rfl) (hne rfl), isBlankText, List.all_cons, hc.not_blank]
  rfl

end OpensHead

end OpensHead

/-- No word character starts a line of another kind than a tag. -/
theorem lineContent_of_isWord {p : Place} {c : Char} {cs : List Char} (hp : p.rest = c :: cs)
    (hw : isWord c = true) (indent : Nat) : lineContent indent p = tagLine indent p :=
  OpensHead.lineContent (.inl hw) hp indent

/-! ## Texts -/

section Texts

variable {levels : List Nat} {first : Bool} {p : Place}

/-- At the end of a text all levels are closed. -/
theorem scanLines_end (h : p.rest = []) : scanLines levels first p = .ok (closing levels p) := by
  rw [scanLines, dif_pos h]

/-- A blank line is passed, whatever its indentation is. -/
theorem scanLines_blank (hne : p.rest ≠ []) (hb : isBlankText p.line = true) :
    scanLines levels first p = scanLines levels first p.nextLine := by
  rw [scanLines, dif_neg hne, if_pos hb]

/-- A line that is not blank: its indentation, what it opens or closes, its content and the
    further lines. -/
theorem scanLines_content (hne : p.rest ≠ []) (hb : ¬isBlankText p.line = true) :
    scanLines levels first p =
      if mixesIndent p then .error (.between .mixedIndent p (p.drop p.indent))
      else (openLine levels first p.indent).elim
        (.error (.between (.inconsistentIndent p.indent) p (p.drop p.indent))) fun o =>
          (lineContent p.indent (p.drop p.indent)).bind fun r =>
            (scanLines o.2 false r.2).map fun more =>
              o.1.map (⟨·, (p.drop p.indent).point⟩) ++ (r.1 ++ more) := by
  rw [scanLines, dif_neg hne, if_neg hb]
  dsimp only
  split
  · rfl
  · cases openLine levels first p.indent with
    | none => rfl
    | some o =>
      dsimp only [Option.elim]
      split
      · rename_i hc
        rw [hc]
        rfl
      · rename_i hc
        rw [hc]
        rfl

/-- A line that is not blank opens or closes levels by its indentation, then comes its content,
    and then the other lines. -/
theorem scanLines_line {inner : List Nat} {next : Place} {opening : List Lexeme}
    {content : List Token} (hne : p.rest ≠ []) (hb : ¬isBlankText p.line = true)
    (hmix : ¬mixesIndent p = true)
    (hopen : openLine levels first p.indent = some (opening, inner))
    (hc : lineContent p.indent (p.drop p.indent) = .ok (content, next)) :
    scanLines levels first p = (scanLines inner false next).map fun more =>
      opening.map (fun l => ⟨l, (p.drop p.indent).point⟩) ++ (content ++ more) := by
  rw [scanLines_content hne hb, if_neg hmix, hopen, Option.elim, hc]
  rfl

end Texts

end SlotMarkup
