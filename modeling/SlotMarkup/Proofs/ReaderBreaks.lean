import SlotMarkup.Proofs.Words
import SlotMarkup.Token.Document

/-!
# Where readers cut a text

Every reader of the markup stops where no word goes on. Here is, reader by
reader, what it takes from the text and what the rest then starts with.

* `stringEnd_spec`: a string ends with its quote;
* `valueEnd_head`, `nameLength_head`: values and names end before a character
  that is in no word;
* `wordBreak_tagName?`: a tag name ends at a word break;
* `line_append_nextLine`: a line and its break are all there is before the next
  line.
-/

namespace SlotMarkup

/-! ## Strings and values -/

/-- A string ends with its quote. -/
theorem quotedLength?_spec {quote : Char} {cs : List Char} {n : Nat}
    (h : quotedLength? quote cs = some n) : ∃ as, cs.take n = as ++ [quote] := by
  fun_induction quotedLength? quote cs generalizing n with
  | case1 => simp at h
  | case2 => simp at h
  | case3 c cs ih =>
    obtain ⟨m, hm, rfl⟩ := Option.map_eq_some_iff.1 h
    obtain ⟨as, has⟩ := ih hm
    exact ⟨'\\' :: c :: as, by rw [List.take_succ_cons, List.take_succ_cons, has]; rfl⟩
  | case4 => exact ⟨[], by obtain rfl := Option.some.inj h; rfl⟩
  | case5 c cs _ _ _ ih =>
    obtain ⟨m, hm, rfl⟩ := Option.map_eq_some_iff.1 h
    obtain ⟨as, has⟩ := ih hm
    exact ⟨c :: as, by rw [List.take_succ_cons, has]; rfl⟩

/-- A string goes up to its closing quote. -/
theorem stringEnd_spec {quote c : Char} {cs : List Char} {p q : Place} (hp : p.rest = c :: cs)
    (h : stringEnd quote p = .ok q) : ∃ as, cs = as ++ quote :: q.rest := by
  rw [stringEnd] at h
  split at h
  · rename_i n hn
    obtain rfl := Except.ok.inj h
    obtain ⟨as, has⟩ := quotedLength?_spec hn
    rw [hp, List.drop_one, List.tail_cons] at has
    refine ⟨as, ?_⟩
    rw [Place.rest_drop, hp, List.drop_succ_cons, ← List.singleton_append, ← List.append_assoc,
      ← has, List.take_append_drop]
  · simp at h

/-- A value ends before a blank, a comma or a bracket, or at the end of the text. -/
theorem valueEnd_head {depth : Nat} {p q : Place} (h : valueEnd depth p = .ok q) :
    ∀ c ∈ q.rest.head?, isWord c = false := by
  fun_induction valueEnd depth p with
  | case1 _ p hp =>
    obtain rfl := Except.ok.inj h
    simp [hp]
  | case2 _ _ _ _ _ _ r hr ih => exact ih h
  | case3 => simp at h
  | case4 _ p _ _ _ _ _ ih => exact ih h
  | case5 p c cs hp _ _ hc =>
    obtain rfl := Except.ok.inj h
    rw [hp]
    rintro d ⟨rfl⟩
    rcases hc with rfl | rfl | rfl <;> rfl
  | case6 _ p _ _ _ _ _ _ _ ih => exact ih h
  | case7 depth p c cs hp _ _ _ hc =>
    obtain rfl := Except.ok.inj h
    rw [hp]
    rintro d ⟨rfl⟩
    rcases hc.2 with rfl | hb
    · rfl
    · exact isWord_of_isBlank hb
  | case8 _ p _ _ _ _ _ _ _ ih => exact ih h

/-! ## Names -/

/-- An unquoted attribute name ends before a character that is in no word. -/
theorem nameLength_head (cs : List Char) :
    ∀ c ∈ (cs.drop (nameLength cs)).head?, isWord c = false := by
  fun_induction nameLength cs with
  | case1 => simp
  | case2 c cs hc =>
    rintro d ⟨rfl⟩
    rcases hc with hb | rfl | rfl | rfl | rfl
    · exact isWord_of_isBlank hb
    all_goals rfl
  | case3 c cs _ hc =>
    rintro d ⟨rfl⟩
    rw [hc.1]
    rfl
  | case4 c cs _ _ ih => exact ih

/-- What trailing things are dropped from does not end with one of them. -/
theorem getLast?_dropTrailing {α : Type} {f : α → Bool} {l : List α} {a : α}
    (h : a ∈ (dropTrailing f l).getLast?) : f a = false := by
  rw [dropTrailing, List.getLast?_reverse] at h
  have := List.head?_dropWhile_not f l.reverse
  rw [Option.mem_def] at h
  simpa [h] using this

/-- A tag name is the start of a text, and no word goes on after it. -/
theorem wordBreak_tagName? {cs name : List Char} (h : tagName? cs = some name) :
    ∃ ds, cs = name ++ ds ∧ WordBreak name ds := by
  rw [tagName?] at h
  split at h
  · obtain rfl := Option.some.inj h
    have hsplit := dropTrailing_append_takeWhile isNameJoint (cs.takeWhile isTagNamePart)
    refine ⟨((cs.takeWhile isTagNamePart).reverse.takeWhile isNameJoint).reverse ++
      cs.dropWhile isTagNamePart, ?_, wordBreak_of_head fun c hc => ?_⟩
    · rw [← List.append_assoc, hsplit, List.takeWhile_append_dropWhile]
    · -- What follows are joints that were dropped, or the first character of no name.
      cases hj : ((cs.takeWhile isTagNamePart).reverse.takeWhile isNameJoint).reverse with
      | nil =>
        rw [hj, List.nil_append] at hc
        have := mem_head?_dropWhile hc
        exact Bool.eq_false_iff.2 fun hw => by simp [isTagNamePart_of_isWord hw] at this
      | cons d ds =>
        rw [hj, List.cons_append, List.head?_cons, Option.mem_def, Option.some.injEq] at hc
        subst hc
        have hd : d ∈ (cs.takeWhile isTagNamePart).reverse.takeWhile isNameJoint := by
          rw [← List.mem_reverse, hj]
          exact List.mem_cons_self
        exact isWord_of_isNameJoint (mem_takeWhile hd)
  · simp at h

/-- Shorthands do not start as words do. -/
theorem isWord_of_sigil? {c : Char} {f : String → Lexeme} (h : sigil? c = some f) :
    isWord c = false := by
  rw [sigil?.eq_def] at h
  split at h
  · rfl
  · rfl
  · simp at h

/-- A shorthand is a sigil and a run of name characters. -/
theorem shorthand?_eq_some {p q : Place} {t : Token} (h : shorthand? p = some (t, q)) :
    ∃ sigil f cs, sigil? sigil = some f ∧ p.rest = sigil :: cs ∧
      (∃ c ∈ cs.head?, isNamePart c = true) ∧
      t.lexeme = f (String.ofList (cs.takeWhile isNamePart)) ∧
      q.rest = cs.dropWhile isNamePart := by
  rw [shorthand?] at h
  split at h
  · rename_i sigil c cs hp
    split at h
    · rename_i f hf
      split at h
      · rename_i hc
        obtain ⟨rfl, rfl⟩ := Prod.mk.inj (Option.some.inj h)
        refine ⟨sigil, f, c :: cs, hf, hp, ⟨c, rfl, hc⟩, rfl, ?_⟩
        rw [Place.rest_drop, hp, List.drop_succ_cons, drop_length_takeWhile]
      · simp at h
    · simp at h
  · simp at h

/-! ## Lines -/

/-- What is looked for is what is found. -/
theorem eq_of_dropWhile_ne {a d : Char} {cs ds : List Char}
    (h : cs.dropWhile (· != a) = d :: ds) : d = a := by
  have hd : (d != a) = false :=
    mem_head?_dropWhile (f := (· != a)) (l := cs) (by rw [h]; rfl)
  exact bne_eq_false_iff_eq.1 hd

/-- The next line is behind the next line feed. -/
theorem Place.rest_nextLine (p : Place) :
    p.nextLine.rest = (p.rest.dropWhile (· != '\n')).drop 1 := by
  rw [nextLine, rest_drop, ← List.drop_drop, drop_length_takeWhile]

/-- What stands between a line and the next one. -/
def lineBreak (p : Place) : List Char :=
  (if (p.rest.takeWhile (· != '\n')).getLast? = some '\r' then ['\r'] else []) ++
    (p.rest.dropWhile (· != '\n')).take 1

/-- A break is blank. -/
theorem isBlank_of_mem_lineBreak {p : Place} {c : Char} (h : c ∈ lineBreak p) :
    isBlank c = true := by
  rw [lineBreak, List.mem_append] at h
  rcases h with h | h
  · split at h
    · rw [List.mem_singleton.1 h]
      rfl
    · simp at h
  · cases hd : p.rest.dropWhile (· != '\n') with
    | nil => simp [hd] at h
    | cons d ds =>
      rw [hd, List.take_succ_cons, List.take_zero, List.mem_singleton] at h
      rw [h, eq_of_dropWhile_ne hd]
      rfl

theorem noWord_lineBreak (p : Place) : NoWord (lineBreak p) := fun _ hc =>
  isWord_of_isBlank (isBlank_of_mem_lineBreak hc)

/-- A line and the return that is left out of it are all there is before the line feed. -/
theorem Place.line_append_lineBreak (p : Place) :
    p.line ++ (if (p.rest.takeWhile (· != '\n')).getLast? = some '\r' then ['\r'] else []) =
      p.rest.takeWhile (· != '\n') := by
  rw [line]
  split
  · rename_i h
    obtain ⟨ds, hds⟩ := List.getLast?_eq_some_iff.1 h
    rw [hds, List.dropLast_concat]
  · exact List.append_nil _

/-- A line, its break and what follows are the text. -/
theorem Place.line_append_nextLine (p : Place) :
    p.line ++ (lineBreak p ++ p.nextLine.rest) = p.rest := by
  rw [lineBreak, p.rest_nextLine, ← List.append_assoc, ← List.append_assoc, p.line_append_lineBreak,
    List.append_assoc, List.take_append_drop, List.takeWhile_append_dropWhile]

/-- After a line comes its break or the end of the text. -/
theorem lineBreak_head (p : Place) :
    ∀ c ∈ (lineBreak p ++ p.nextLine.rest).head?, c = '\r' ∨ c = '\n' := by
  rw [lineBreak, p.rest_nextLine, List.append_assoc, List.take_append_drop]
  split
  · rintro c ⟨rfl⟩
    exact .inl rfl
  · rw [List.nil_append]
    intro c hc
    cases hd : p.rest.dropWhile (· != '\n') with
    | nil => simp [hd] at hc
    | cons d ds =>
      rw [hd, List.head?_cons, Option.mem_def, Option.some.injEq] at hc
      exact .inr (hc ▸ eq_of_dropWhile_ne hd)

theorem Place.line_cons {p : Place} {c : Char} {cs : List Char} (hp : p.rest = c :: cs)
    (hn : c ≠ '\n') (hr : c ≠ '\r') : p.line = c :: (p.drop 1).line := by
  have htake : p.rest.takeWhile (· != '\n') = c :: cs.takeWhile (· != '\n') := by
    rw [hp, List.takeWhile_cons_of_pos (by simpa using hn)]
  rw [line, line, htake, rest_drop, hp, List.drop_one, List.tail_cons]
  cases cs.takeWhile (· != '\n') with
  | nil => simp [hr]
  | cons d ds =>
    rw [List.getLast?_cons_cons]
    split
    · rw [List.dropLast_cons_of_ne_nil (List.cons_ne_nil d ds)]
    · rfl

/-- The next line stays where it is, one character on. -/
theorem Place.nextLine_drop_one {p : Place} {c : Char} {cs : List Char} (hp : p.rest = c :: cs)
    (hn : c ≠ '\n') : (p.drop 1).nextLine = p.nextLine := by
  have htake : p.rest.takeWhile (· != '\n') = c :: cs.takeWhile (· != '\n') := by
    rw [hp, List.takeWhile_cons_of_pos (by simpa using hn)]
  rw [nextLine, nextLine, drop_drop, rest_drop, htake, hp, List.drop_one, List.tail_cons,
    List.length_cons, Nat.add_comm 1]

/-- A line is followed by its break or by nothing, so all the indentation is in it. -/
theorem Place.indentWidth_line (p : Place) : indentWidth p.line = p.indent := by
  have hbreak : ∀ c ∈ (lineBreak p ++ p.nextLine.rest).head?, isIndent c = false := fun c hc => by
    rcases lineBreak_head p c hc with rfl | rfl <;> rfl
  have hrest := p.line_append_nextLine
  rw [indent, ← hrest, indentWidth, indentWidth, takeWhile_append_of_head hbreak]

theorem Place.indent_le_length (p : Place) : p.indent ≤ p.line.length := by
  rw [← p.indentWidth_line]
  exact (List.takeWhile_prefix _).length_le

/-- The line of a comment starts with its slashes. -/
theorem Place.line_comment {p : Place} {cs : List Char} (hp : p.rest = '/' :: '/' :: cs) :
    p.line = '/' :: '/' :: (p.drop 2).line := by
  have hp1 : (p.drop 1).rest = '/' :: cs := by
    rw [rest_drop, hp]
    rfl
  rw [line_cons hp (by decide) (by decide), line_cons hp1 (by decide) (by decide), drop_drop]

/-- What is blank has no word in it. -/
theorem noWord_of_isBlankText {cs : List Char} (h : isBlankText cs = true) : NoWord cs :=
  fun c hc => isWord_of_isBlank (List.all_eq_true.1 h c hc)

theorem Place.upTo_eq_of_append {p q : Place} {cs : List Char} (h : p.rest = cs ++ q.rest) :
    p.upTo q = cs := by
  rw [upTo, h, List.length_append, Nat.add_sub_cancel, List.take_left]

/-- What is between places is in order. -/
theorem Place.Reaches.upTo_append {p q r : Place} (h : p.Reaches q) (k : q.Reaches r) :
    p.upTo q ++ q.upTo r = p.upTo r := by
  refine (upTo_eq_of_append ?_).symm
  rw [List.append_assoc, k.append_upTo, h.append_upTo]

theorem Place.upTo_drop (p : Place) (n : Nat) : p.upTo (p.drop n) = p.rest.take n :=
  upTo_eq_of_append (List.take_append_drop n p.rest).symm

/-- Up to the end of a line there is the line. -/
theorem Place.upTo_lineEnd (p : Place) : p.upTo p.lineEnd = p.line := by
  rw [lineEnd, upTo_drop]
  conv => lhs; rw [← p.line_append_nextLine]
  exact List.take_left

/-- What stands between a quote and the next one, and the next one. -/
theorem Place.upTo_of_quotes {p q : Place} {quote : Char} {cs : List Char}
    (h : p.rest = quote :: (cs ++ quote :: q.rest)) : (p.drop 1).upTo q = cs ++ [quote] := by
  refine upTo_eq_of_append ?_
  rw [rest_drop, h, List.drop_one, List.tail_cons, List.append_assoc]
  rfl

/-- A line of a block is stripped of a part of its indentation. -/
theorem stripLine_chars {width : Nat} {p : Place}
    (h : isBlankText p.line = false → width ≤ p.indent) :
    (stripLine width p).chars = if isBlankText p.line then [] else p.line.drop width := by
  rw [stripLine]
  split
  · rw [Stretch.chars, Place.upTo, Nat.sub_self, List.take_zero]
  · rename_i hb
    have hlen : width ≤ p.line.length := Nat.le_trans (h (by simpa using hb)) p.indent_le_length
    refine Place.upTo_eq_of_append ?_
    rw [Place.lineEnd, Place.rest_drop, Place.rest_drop]
    conv => lhs; rw [← p.line_append_nextLine]
    conv => rhs; rw [← p.line_append_nextLine]
    rw [List.drop_append_of_le_length hlen, List.drop_left]

theorem isIndent_of_mem_take {width : Nat} {cs : List Char} (h : width ≤ indentWidth cs) :
    ∀ c ∈ cs.take width, isIndent c = true := fun c hc => by
  have hsub : cs.take width <+: cs.takeWhile isIndent :=
    List.prefix_of_prefix_length_le (List.take_prefix _ _) (List.takeWhile_prefix _)
      (Nat.le_trans (List.length_take_le _ _) h)
  exact mem_takeWhile (hsub.subset hc)

theorem noWord_take_indent {width : Nat} {cs : List Char} (h : width ≤ indentWidth cs) :
    NoWord (cs.take width) := fun c hc => isWord_of_isIndent (isIndent_of_mem_take h c hc)

/-! ## Openings -/

/-- A line is nested in the one before, breaks it, or closes some of the lines around it. -/
theorem openLine_cases {levels inner : List Nat} {first : Bool} {indent : Nat} {ls : List Lexeme}
    (h : openLine levels first indent = some (ls, inner)) :
    (levels.headD 0 < indent ∧ ls = [.indent] ∧ inner = indent :: levels) ∨
    (levels.headD 0 = indent ∧ ls = (if first then [] else [.newline]) ∧ inner = levels) ∨
    (∃ n, indent < levels.headD 0 ∧ n ≤ levels.length ∧ ls = List.replicate n .outdent ∧
      inner = levels.drop n ∧ inner.headD 0 = indent) := by
  rw [openLine] at h
  dsimp only at h
  split at h
  · obtain ⟨rfl, rfl⟩ := Prod.mk.inj (Option.some.inj h)
    exact .inl ⟨‹_›, rfl, rfl⟩
  · split at h
    · obtain ⟨rfl, rfl⟩ := Prod.mk.inj (Option.some.inj h)
      exact .inr (.inl ⟨‹_›, rfl, rfl⟩)
    · split at h
      · obtain ⟨rfl, rfl⟩ := Prod.mk.inj (Option.some.inj h)
        refine .inr (.inr ⟨_, by omega, Nat.sub_le _ _, rfl, ?_, ‹_›⟩)
        have hlen := congrArg List.length
          (List.takeWhile_append_dropWhile (p := (indent < ·)) (l := levels))
        rw [List.length_append] at hlen
        have hdrop : levels.length - (levels.dropWhile (indent < ·)).length =
            (levels.takeWhile (indent < ·)).length := by omega
        rw [hdrop, drop_length_takeWhile]
      · simp at h

/-- A line opens with indents, breaks and outdents only. -/
theorem mem_opening {levels inner : List Nat} {first : Bool} {indent : Nat} {ls : List Lexeme}
    (h : openLine levels first indent = some (ls, inner)) {l : Lexeme} (hl : l ∈ ls) :
    l = .indent ∨ l = .newline ∨ l = .outdent := by
  rcases openLine_cases h with ⟨-, rfl, -⟩ | ⟨-, rfl, -⟩ | ⟨n, -, -, rfl, -⟩
  · exact .inl (List.mem_singleton.1 hl)
  · cases first with
    | true => simp at hl
    | false => exact .inr (.inl (by simpa using hl))
  · exact .inr (.inr (List.eq_of_mem_replicate hl))

end SlotMarkup
