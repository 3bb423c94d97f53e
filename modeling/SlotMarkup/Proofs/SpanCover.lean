import SlotMarkup.Proofs.ParseOutcome
import SlotMarkup.Proofs.TokenCover

/-!
# What spans cover

Up to the limit of a span, the spans of the tokens of a text cover all of it but blanks,
the commas of attribute lists and the slashes of tags without content, unless a carriage
return stands directly behind the head of a tag (`Token.scan_covers`). What comes after
such a return on its line is in no span (`Token.scan_loses`). In a text without stray
returns there is nothing of the kind (`Token.scan_covers_of_breaks`).
-/

namespace SlotMarkup

/-- The bytes from `start` up to `stop` are in a span. -/
def Span.Contains (s : Span) (start stop : Nat) : Prop := s.start ≤ start ∧ stop ≤ s.stop

/-- The comma at an offset is one of an attribute list: it is between its parentheses. -/
def IsListComma (tokens : List Token) (c : Char) (offset : Nat) : Prop :=
  c = ',' ∧ ∃ o as cl, o :: (as ++ [cl]) <:+: tokens ∧ o.kind = .openAttributes ∧
    (∀ a ∈ as, a.kind = .attr) ∧ cl.kind = .closeAttributes ∧
    o.span.stop ≤ offset ∧ offset < cl.span.start

/-- The slash at an offset closes a tag without content: it is directly behind the head of
    the tag, and the rest of its line is blank. -/
def IsClosingSlash (tokens : List Token) (c : Char) (offset : Nat) (post : List Char) : Prop :=
  c = '/' ∧ (∃ t ∈ tokens, t.kind ∈ headEnds ∧ t.span.stop = offset) ∧
    isBlankText (post.takeWhile (· != '\n')) = true

/-- The line that `pre` ends in has a carriage return directly behind the head of a tag. -/
def IsBehindReturn (tokens : List Token) (pre : List Char) : Prop :=
  ∃ head mid, pre = head ++ '\r' :: mid ∧ '\n' ∉ mid ∧
    ∃ t ∈ tokens, t.kind ∈ headEnds ∧ t.span.stop = byteSize head

namespace Place

theorem Reaches.offset_le {p q : Place} (h : p.Reaches q) : p.offset ≤ q.offset := by
  rw [h.offset_eq]
  exact Nat.le_add_right _ _

/-- The character at a place is between it and any later one. -/
theorem Precedes.offset_le {p q : Place} {c : Char} {cs : List Char} (h : p.Precedes q)
    (hp : p.rest = c :: cs) : p.offset + c.utf8Size ≤ q.offset := by
  obtain ⟨n, hn⟩ := Nat.exists_eq_add_of_lt h.2
  have hupTo : p.upTo q = c :: cs.take n := by
    rw [upTo, hn, show q.rest.length + n + 1 - q.rest.length = n + 1 by omega, hp,
      List.take_succ_cons]
  rw [h.1.offset_eq, hupTo, byteSize_cons]
  omega

/-- Between two places of a line there is no line feed. -/
theorem OnLine.notMem_upTo {p q : Place} (h : p.OnLine q) (hq : q.rest ≠ []) :
    '\n' ∉ p.upTo q := by
  obtain ⟨⟨n, rfl⟩, hnext⟩ := h
  by_cases hn : n ≤ (p.rest.takeWhile (· != '\n')).length
  · have hinit : p.upTo (p.drop n) <+: p.rest.takeWhile (· != '\n') := by
      refine List.prefix_of_prefix_length_le (List.take_prefix _ _) (List.takeWhile_prefix _) ?_
      rw [upTo, List.length_take, rest_drop, List.length_drop]
      omega
    intro hmem
    have := mem_takeWhile (hinit.subset hmem)
    simp at this
  · -- The second place would be on a later line.
    have hreach : p.nextLine.Reaches (p.drop n) :=
      ⟨n - ((p.rest.takeWhile (· != '\n')).length + 1), by
        rw [nextLine, drop_drop]
        congr 1
        omega⟩
    exact absurd (hnext ▸ hreach.length_le) (Nat.not_le_of_lt (nextLine_lt hq))

/-- The end of a place's line is blank if the line is. -/
theorem isBlank_takeWhile {p : Place} (h : isBlankText p.line = true) :
    isBlankText (p.rest.takeWhile (· != '\n')) = true := by
  rw [← p.line_append_lineBreak, isBlankText, List.all_append, Bool.and_eq_true]
  refine ⟨h, ?_⟩
  split <;> rfl

end Place

section Covers

variable {text : String} {tokens : List Token} (h : Token.scan text = .ok tokens)
  {pre post : List Char} {c : Char} (htext : text.toList = pre ++ c :: post)
  (hc : isBlank c = false) (hlimit : byteSize pre + c.utf8Size ≤ Span.limit)
include h htext hc hlimit

/-- A character within the limit of a span that is not blank is in the span of a token, unless it
    is a comma of an attribute list or the slash of a tag without content, or comes after a
    carriage return directly behind the head of a tag. No span goes over the limit, so that of the
    characters behind it nothing is told. -/
theorem Token.scan_covers :
    (∃ t ∈ tokens, t.span.Contains (byteSize pre) (byteSize pre + c.utf8Size)) ∨
      IsListComma tokens c (byteSize pre) ∨ IsClosingSlash tokens c (byteSize pre) post ∨
      IsBehindReturn tokens pre := by
  have hr : (Place.ofText text).Reaches ⟨byteSize pre, c :: post⟩ := by
    refine ⟨pre.length, ?_⟩
    simp [Place.ofText, Place.drop, htext]
  have hpos := c.utf8Size_pos
  cases scanLines_accounts h hr with
  | blank hb => simp [hb c rfl] at hc
  | @held l a b ht ha hb =>
    have hstart : a.offset ≤ byteSize pre := ha.offset_le
    have hstop : byteSize pre + c.utf8Size ≤ b.offset := hb.offset_le rfl
    refine .inl ⟨_, ht, ?_⟩
    simp only [Token.read, Place.spanTo, Span.ofRange, Span.Contains]
    omega
  | @comma a b as d e hcomma ht has hb hd =>
    have hstart : b.offset ≤ byteSize pre := hb.offset_le
    have hstop : byteSize pre + c.utf8Size ≤ d.offset := hd.offset_le rfl
    refine .inr (.inl ⟨Option.some.inj hcomma, _, as, _, ht, rfl, has, rfl, ?_⟩)
    simp only [Token.read, Place.spanTo, Span.ofRange]
    omega
  | @slash l a hslash ht hl hb =>
    refine .inr (.inr (.inl ⟨Option.some.inj hslash, ⟨_, ht, hl, ?_⟩, ?_⟩))
    · simp only [Token.read, Place.spanTo, Span.ofRange]
      omega
    · exact Place.isBlank_takeWhile hb
  | @lost l a s ht hl hp hs hline =>
    obtain ⟨cs, hcs⟩ := List.head?_eq_some_iff.1 hs
    have hbetween := hline.1.append_upTo
    have hfeed := hline.notMem_upTo (List.cons_ne_nil c post)
    rw [hcs] at hbetween
    -- Something blank stands at `s`, so the character is after it.
    cases hmid : s.upTo ⟨byteSize pre, c :: post⟩ with
    | nil =>
      rw [hmid] at hbetween
      obtain ⟨rfl, -⟩ := List.cons.inj hbetween
      simp [isBlank] at hc
    | cons d mid =>
      rw [hmid] at hbetween hfeed
      obtain ⟨rfl, rfl⟩ := List.cons.inj hbetween
      have hhead := hp.append_upTo
      have hoffset := hp.offset_eq
      refine .inr (.inr (.inr ⟨(Place.ofText text).upTo s, mid, ?_,
        fun hn => hfeed (List.mem_cons_of_mem _ hn), _, ht, hl, ?_⟩))
      · rw [hcs, show (Place.ofText text).rest = text.toList from rfl, htext] at hhead
        exact (List.append_cancel_right (by simpa using hhead)).symm
      · have hle : s.offset ≤ byteSize pre := hline.1.offset_le
        rw [show (Place.ofText text).offset = 0 from rfl, Nat.zero_add] at hoffset
        simp only [Token.read, Place.spanTo, Span.ofRange]
        omega

/-- If a line feed comes after every carriage return but one at the end of the text, a character
    within the limit of a span that is not blank is in the span of a token, unless it is a comma
    of an attribute list or the slash of a tag without content. -/
theorem Token.scan_covers_of_breaks (hbreaks : ∀ d, ['\r', d] <:+: text.toList → d = '\n') :
    (∃ t ∈ tokens, t.span.Contains (byteSize pre) (byteSize pre + c.utf8Size)) ∨
      IsListComma tokens c (byteSize pre) ∨ IsClosingSlash tokens c (byteSize pre) post := by
  rcases scan_covers h htext hc hlimit with hheld | hcomma | hslash | ⟨head, mid, rfl, hmid, -⟩
  · exact .inl hheld
  · exact .inr (.inl hcomma)
  · exact .inr (.inr hslash)
  · -- What comes after the return is the character itself, or on its line.
    cases mid with
    | nil =>
      obtain rfl := hbreaks c ⟨head, post, by simp [htext]⟩
      simp [isBlank] at hc
    | cons d mid =>
      obtain rfl := hbreaks d ⟨head, mid ++ c :: post, by simp [htext]⟩
      simp at hmid

end Covers

/-- The comma between two attributes, on a line that ends with a carriage return and a line
    feed. -/
theorem Token.scan_covers_comma :
    ∃ tokens, Token.scan "p(a,b)/\r\nq" = .ok tokens ∧
      ((∃ t ∈ tokens, t.span.Contains 3 4) ∨ IsListComma tokens ',' 3 ∨
        IsClosingSlash tokens ',' 3 "b)/\r\nq".toList) := by
  have hscan : (Token.scan "p(a,b)/\r\nq").toOption.isSome = true := by decide +kernel
  obtain ⟨tokens, htokens⟩ := Option.isSome_iff_exists.1 hscan
  have htext : "p(a,b)/\r\nq".toList = "p(a".toList ++ ',' :: "b)/\r\nq".toList := by decide
  refine ⟨tokens, ok_of_toOption htokens,
    Token.scan_covers_of_breaks (ok_of_toOption htokens) htext (by decide) (by decide) ?_⟩
  intro d hd
  simpa [List.infix_cons_iff, List.cons_prefix_cons] using hd

/-- Without a line feed after it, a carriage return behind the name of a tag hides the rest
    of the line: the letter is in no span, and neither a comma nor a slash. -/
theorem Token.scan_loses :
    Token.scan "a\rb" = .ok [⟨.tag "a", ⟨0, 1⟩⟩, ⟨.eof, ⟨3, 3⟩⟩] ∧
      ∀ t ∈ [(⟨.tag "a", ⟨0, 1⟩⟩ : Token), ⟨.eof, ⟨3, 3⟩⟩], ¬ t.span.Contains 2 3 := by
  have hscan : (Token.scan "a\rb").toOption =
      some [⟨.tag "a", ⟨0, 1⟩⟩, ⟨.eof, ⟨3, 3⟩⟩] := by decide +kernel
  refine ⟨ok_of_toOption hscan, ?_⟩
  simp [Span.Contains]

end SlotMarkup
