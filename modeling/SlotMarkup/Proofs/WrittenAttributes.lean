import SlotMarkup.Proofs.ElementLines

/-!
# Written attributes

Any list of attributes can be written so that it is read back: each name as it is, each
raw value behind an equals sign, and blanks and commas between any two (`written`). Of a
name it takes that nothing in it ends it (`AttributeName`), of a value that its strings
and brackets are closed (`IsRaw`), however deep they are nested.

* `IsRaw.valueEnd_eq`: such a value is read to its end, whatever comes after it;
* `readAttribute_written`: an attribute is cut out of the text behind it;
* `attributesFrom_written`: so is a list of them, by induction on the list;
* `Token.scan_written`: the tokens of a tag with such a list.
-/

namespace SlotMarkup

/-! ## Raw values -/

/-- What stands between two quotes of a kind: none of that kind, unless a backslash
    escapes it. -/
inductive IsQuoted (quote : Char) : List Char → Prop
  | nil : IsQuoted quote []
  | escape (c : Char) {cs : List Char} (h : IsQuoted quote cs) : IsQuoted quote ('\\' :: c :: cs)
  | plain {c : Char} {cs : List Char} (hc : c ≠ quote) (hesc : c ≠ '\\') (h : IsQuoted quote cs) :
    IsQuoted quote (c :: cs)

/-- The characters that open a group in a value. -/
def IsOpening (c : Char) : Prop := c = '(' ∨ c = '[' ∨ c = '\x7b'

instance (c : Char) : Decidable (IsOpening c) := inferInstanceAs (Decidable (_ ∨ _ ∨ _))

/-- The characters that close a group, whichever opened it. -/
def IsClosing (c : Char) : Prop := c = ')' ∨ c = ']' ∨ c = '\x7d'

instance (c : Char) : Decidable (IsClosing c) := inferInstanceAs (Decidable (_ ∨ _ ∨ _))

/-- The characters of a value without a meaning for where it ends. -/
structure IsPlain (c : Char) : Prop where
  no_separator : isSeparator c = false
  no_quote : ¬IsQuote c
  no_opening : ¬IsOpening c
  no_closing : ¬IsClosing c

instance (c : Char) : Decidable (IsPlain c) :=
  decidable_of_iff (isSeparator c = false ∧ ¬IsQuote c ∧ ¬IsOpening c ∧ ¬IsClosing c)
    ⟨fun ⟨hs, hq, ho, hc⟩ => ⟨hs, hq, ho, hc⟩, fun h => ⟨h.1, h.2, h.3, h.4⟩⟩

/-- A raw value, or what stands in a group of one: strings and groups that are closed, plain
    characters, and in a group blanks and commas. -/
inductive IsRaw : (grouped : Bool) → List Char → Prop
  | nil {grouped : Bool} : IsRaw grouped []
  | plain {grouped : Bool} {c : Char} {cs : List Char} (hc : IsPlain c) (h : IsRaw grouped cs) :
    IsRaw grouped (c :: cs)
  | separator {c : Char} {cs : List Char} (hc : isSeparator c = true) (h : IsRaw true cs) :
    IsRaw true (c :: cs)
  | string {grouped : Bool} {quote : Char} {body cs : List Char} (hq : IsQuote quote)
    (hbody : IsQuoted quote body) (h : IsRaw grouped cs) :
    IsRaw grouped (quote :: (body ++ quote :: cs))
  | group {grouped : Bool} {c d : Char} {body cs : List Char} (hc : IsOpening c) (hd : IsClosing d)
    (hbody : IsRaw true body) (h : IsRaw grouped cs) : IsRaw grouped (c :: (body ++ d :: cs))

/-- An attribute ends before these characters: a separator is next, or the parenthesis that
    closes the list. -/
def EndsAttribute (cs : List Char) : Prop := ∀ c ∈ cs.head?, isSeparator c = true ∨ c = ')'

theorem IsOpening.no_quote {c : Char} (h : IsOpening c) : ¬IsQuote c := by
  rintro (rfl | rfl | rfl) <;> simp [IsOpening] at h

/-- What closes a group is no quote and opens none. -/
theorem IsClosing.no_opening {c : Char} (h : IsClosing c) : ¬IsQuote c ∧ ¬IsOpening c := by
  refine ⟨?_, ?_⟩
  all_goals
    rintro (rfl | rfl | rfl)
    all_goals simp [IsClosing] at h

/-- Separators neither open nor close anything. -/
theorem no_bracket_of_isSeparator {c : Char} (h : isSeparator c = true) :
    ¬IsQuote c ∧ ¬IsOpening c ∧ ¬IsClosing c := by
  refine ⟨?_, ?_, ?_⟩
  all_goals
    rintro (rfl | rfl | rfl)
    all_goals simp [isSeparator, isBlank] at h

/-- What is quoted ends at the quote that is put behind it. -/
theorem IsQuoted.quotedLength?_append {quote : Char} {cs : List Char} (hq : IsQuote quote)
    (h : IsQuoted quote cs) (ds : List Char) :
    quotedLength? quote (cs ++ quote :: ds) = some (cs.length + 1) := by
  induction h with
  | nil => exact quotedLength?_quote hq.ne.1 ds
  | escape c _ ih =>
    rw [List.cons_append, List.cons_append, quotedLength?, ih]
    rfl
  | plain hc hesc _ ih =>
    rw [List.cons_append, quotedLength?_cons hesc hc, ih]
    rfl

section Values

variable {depth : Nat} {p : Place} {c : Char} {cs : List Char}

/-- A string is read to behind its second quote. -/
theorem stringEnd_quoted {body : List Char} (hq : IsQuote c) (hbody : IsQuoted c body)
    (hp : p.rest = c :: (body ++ c :: cs)) : stringEnd c p = .ok (p.drop (body.length + 2)) := by
  rw [stringEnd, hp, List.drop_one, List.tail_cons, hbody.quotedLength?_append hq]

theorem valueEnd_quote (hc : IsQuote c) (hp : p.rest = c :: cs) :
    valueEnd depth p = (stringEnd c p).bind (valueEnd depth) := by
  rw [valueEnd_cons hp]
  exact if_pos hc

/-- Behind a bracket a value goes on one group deeper. -/
theorem valueEnd_opening (hc : IsOpening c) (hp : p.rest = c :: cs) :
    valueEnd depth p = valueEnd (depth + 1) (p.drop 1) := by
  rw [valueEnd_cons hp]
  exact (if_neg hc.no_quote).trans (if_pos hc)

/-- A closing bracket ends the value if no group is open, and else a group. -/
theorem valueEnd_closing (hc : IsClosing c) (hp : p.rest = c :: cs) :
    valueEnd depth p = if depth = 0 then .ok p else valueEnd (depth - 1) (p.drop 1) := by
  rw [valueEnd_cons hp]
  exact (if_neg hc.no_opening.1).trans ((if_neg hc.no_opening.2).trans (if_pos hc))

theorem valueEnd_other (hq : ¬IsQuote c) (ho : ¬IsOpening c) (hc : ¬IsClosing c)
    (hp : p.rest = c :: cs) : valueEnd depth p =
      if depth = 0 ∧ isSeparator c = true then .ok p else valueEnd depth (p.drop 1) := by
  rw [valueEnd_cons hp]
  refine (if_neg hq).trans ((if_neg ho).trans ((if_neg hc).trans ?_))
  simp only [isSeparator, Bool.or_eq_true, beq_iff_eq, or_comm (a := c = ',')]

/-- A value is read to its end. In a group this takes brackets around it that are open, as
    only these let it go on over a separator. -/
theorem IsRaw.valueEnd_eq {grouped : Bool} {raw : List Char} (h : IsRaw grouped raw)
    (hdepth : grouped = true → depth ≠ 0) (hp : p.rest = raw ++ cs) :
    valueEnd depth p = valueEnd depth (p.drop raw.length) := by
  induction h generalizing depth p cs with
  | nil => rw [List.length_nil, Place.drop_zero]
  | plain hc _ ih =>
    rw [valueEnd_other hc.no_quote hc.no_opening hc.no_closing hp,
      if_neg (by simp [hc.no_separator]), ih hdepth (by rw [Place.rest_drop, hp]; rfl),
      Place.drop_drop, List.length_cons, Nat.add_comm 1]
  | separator hc _ ih =>
    obtain ⟨hq, ho, hcl⟩ := no_bracket_of_isSeparator hc
    rw [valueEnd_other hq ho hcl hp, if_neg fun h => hdepth rfl h.1,
      ih hdepth (by rw [Place.rest_drop, hp]; rfl), Place.drop_drop, List.length_cons,
      Nat.add_comm 1]
  | @string _ quote body raw hq hbody _ ih =>
    rw [List.cons_append, List.append_assoc, List.cons_append] at hp
    have hrest : (p.drop (body.length + 2)).rest = raw ++ cs := by
      rw [Place.rest_drop, hp, List.drop_succ_cons, ← List.drop_drop, List.drop_left]
      rfl
    rw [valueEnd_quote hq hp, stringEnd_quoted hq hbody hp, Except.bind, ih hdepth hrest,
      Place.drop_drop]
    simp only [List.length_cons, List.length_append]
    congr 2
    omega
  | @group _ c d body raw hc hd _ _ ihbody ih =>
    rw [List.cons_append, List.append_assoc, List.cons_append] at hp
    have hbody : (p.drop 1).rest = body ++ (d :: (raw ++ cs)) := by
      rw [Place.rest_drop, hp]
      rfl
    have hclose : ((p.drop 1).drop body.length).rest = d :: (raw ++ cs) := by
      rw [Place.rest_drop, hbody, List.drop_left]
    have hrest : (((p.drop 1).drop body.length).drop 1).rest = raw ++ cs := by
      rw [Place.rest_drop, hclose]
      rfl
    -- Inside of the group a bracket is open, so that separators do not end the value there.
    rw [valueEnd_opening hc hp, ihbody (fun _ => Nat.succ_ne_zero depth) hbody,
      valueEnd_closing hd hclose, if_neg (Nat.succ_ne_zero depth), Nat.succ_sub_one,
      ih hdepth hrest, Place.drop_drop, Place.drop_drop, Place.drop_drop]
    simp only [List.length_cons, List.length_append]
    congr 2
    omega

/-- With no group open, a value ends where an attribute does. -/
theorem valueEnd_of_endsAttribute (hp : EndsAttribute p.rest) : valueEnd 0 p = .ok p := by
  cases hcs : p.rest with
  | nil => exact valueEnd_nil hcs
  | cons c cs =>
    rcases hp c (by rw [hcs]; rfl) with hc | hc
    · obtain ⟨hq, ho, hcl⟩ := no_bracket_of_isSeparator hc
      rw [valueEnd_other hq ho hcl hcs, if_pos ⟨rfl, hc⟩]
    · rw [valueEnd_closing (.inl hc) hcs, if_pos rfl]

end Values

/-! ## Attributes -/

/-- The name of an attribute: nothing in it ends it, and it does not start with a quote that
    names can be written in. -/
structure AttributeName where
  chars : List Char
  ne_nil : chars ≠ []
  head_no_quote : ∀ c ∈ chars.head?, c ≠ '\'' ∧ c ≠ '"'
  no_end : ∀ c ∈ chars, isSeparator c = false ∧ c ∉ ['(', ')', '=', '!']

/-- The raw value of an attribute. -/
structure RawValue where
  chars : List Char
  ne_nil : chars ≠ []
  raw : IsRaw false chars

/-- An attribute, with a value or only named. -/
structure WrittenAttribute where
  name : AttributeName
  value : Option RawValue

/-- Blanks and commas, at least one. -/
structure Separator where
  chars : List Char
  ne_nil : chars ≠ []
  all_separators : ∀ c ∈ chars, isSeparator c = true

namespace WrittenAttribute

/-- An attribute as it is written. -/
def chars (a : WrittenAttribute) : List Char :=
  a.name.chars ++ a.value.elim [] fun v => '=' :: v.chars

/-- An attribute as it is read. -/
def lexeme (a : WrittenAttribute) : Lexeme :=
  .attr (String.ofList a.name.chars) (a.value.elim .bare fun v => .raw (String.ofList v.chars))

end WrittenAttribute

/-- Attributes with a separator between any two. -/
def written (gap : Nat → Separator) : List WrittenAttribute → List Char
  | [] => []
  | [a] => a.chars
  | a :: b :: as => a.chars ++ ((gap as.length).chars ++ written gap (b :: as))

/-! ## Reading attributes -/

/-- A name ends at the end of an attribute and at an equals sign. -/
theorem nameLength_of_end {cs : List Char} (h : EndsAttribute cs ∨ cs.head? = some '=') :
    nameLength cs = 0 := by
  cases cs with
  | nil => rfl
  | cons c cs =>
    have hc : (isSeparator c = true ∨ c = ')') ∨ c = '=' := by simpa [EndsAttribute] using h
    rw [nameLength, if_pos]
    simp only [isSeparator, Bool.or_eq_true, beq_iff_eq] at hc
    rcases hc with ((hc | hc) | hc) | hc <;> simp [hc]

namespace AttributeName

variable (n : AttributeName) {p : Place} {ds : List Char}

theorem nameLength_append (hds : EndsAttribute ds ∨ ds.head? = some '=') :
    nameLength (n.chars ++ ds) = n.chars.length := by
  rw [nameLength_plain n.no_end, nameLength_of_end hds, Nat.add_zero]

/-- A name is read as it is. -/
theorem attributeName_append (hp : p.rest = n.chars ++ ds)
    (hds : EndsAttribute ds ∨ ds.head? = some '=') :
    attributeName p = .ok (n.chars, p.drop n.chars.length) := by
  obtain ⟨c, cs, hcs⟩ := List.exists_cons_of_ne_nil n.ne_nil
  have hquote := n.head_no_quote c (by rw [hcs]; rfl)
  have hlen : nameLength p.rest = n.chars.length := by rw [hp, n.nameLength_append hds]
  rw [attributeName_cons (by rw [hp, hcs]; rfl : p.rest = c :: (cs ++ ds)),
    if_neg (by simp [hquote]), hlen, if_neg (by simp [n.ne_nil]), hp, List.take_left]

end AttributeName

theorem Place.skip_eq_self {p : Place} {f : Char → Bool} (h : ∀ c ∈ p.rest.head?, f c = false) :
    p.skip f = p := by
  cases hcs : p.rest with
  | nil => rw [skip, hcs, List.takeWhile_nil, List.length_nil, drop_zero]
  | cons c cs =>
    rw [skip, hcs, List.takeWhile_cons_of_neg (by simp [h c (by rw [hcs]; rfl)]), List.length_nil,
      drop_zero]

theorem equalsEnd?_eq_none {p : Place} (h : ∀ c ∈ p.rest.head?, c ≠ '=' ∧ c ≠ '!') :
    equalsEnd? p = none := by
  rw [equalsEnd?.eq_def]
  split
  · rename_i hcs
    exact absurd rfl (h '=' (by rw [hcs]; rfl)).1
  · rename_i hcs
    exact absurd rfl (h '!' (by rw [hcs]; rfl)).2
  · rfl

/-- A value starts with no separator. -/
theorem IsRaw.head {c : Char} {cs : List Char} (h : IsRaw false (c :: cs)) :
    isSeparator c = false := by
  refine Bool.eq_false_iff.2 fun hc => ?_
  obtain ⟨hquote, hopening, -⟩ := no_bracket_of_isSeparator hc
  cases h with
  | plain hplain => simp [hplain.no_separator] at hc
  | string hq => exact hquote hq
  | group ho => exact hopening ho

/-- A raw value is read as it was written. -/
theorem attributeValue_written {v : RawValue} {p : Place} {ds : List Char}
    (hp : p.rest = v.chars ++ ds) (hds : EndsAttribute ds) :
    attributeValue p = .ok (v.chars, p.drop v.chars.length) := by
  have hrest : (p.drop v.chars.length).rest = ds := by rw [Place.rest_drop, hp, List.drop_left]
  have hend : valueEnd 0 p = .ok (p.drop v.chars.length) := by
    rw [v.raw.valueEnd_eq (absurd · Bool.false_ne_true) hp,
      valueEnd_of_endsAttribute (hrest.symm ▸ hds)]
  have hchars : p.upTo (p.drop v.chars.length) = v.chars :=
    Place.upTo_eq_of_append (by rw [hrest, hp])
  simp only [attributeValue, hend, hchars, if_neg v.ne_nil]

/-- An attribute with a value is read up to the end of the value. No blank is around its equals
    sign, as neither its name nor its value has one there. -/
theorem readAttribute_valued (n : AttributeName) (v : RawValue) {p q : Place} {ds : List Char}
    (hp : p.rest = n.chars ++ '=' :: (v.chars ++ ds)) (hds : EndsAttribute ds)
    (hq : q = ((p.drop n.chars.length).drop 1).drop v.chars.length) : readAttribute p =
      .ok (.read (.attr (String.ofList n.chars) (.raw (String.ofList v.chars))) p q, q) := by
  have hname := n.attributeName_append hp (.inr rfl)
  have hsign : (p.drop n.chars.length).rest = '=' :: (v.chars ++ ds) := by
    rw [Place.rest_drop, hp, List.drop_left]
  have hrest : ((p.drop n.chars.length).drop 1).rest = v.chars ++ ds := by
    rw [Place.rest_drop, hsign]
    rfl
  have hskip : (p.drop n.chars.length).skip isIndent = p.drop n.chars.length := by
    refine Place.skip_eq_self fun c hc => ?_
    rw [hsign] at hc
    obtain rfl := Option.some.inj hc
    rfl
  have hequals : equalsEnd? (p.drop n.chars.length) = some ((p.drop n.chars.length).drop 1) := by
    simp only [equalsEnd?, hsign]
  have hblank : ((p.drop n.chars.length).drop 1).skip isBlank =
      (p.drop n.chars.length).drop 1 := by
    refine Place.skip_eq_self fun c hc => ?_
    obtain ⟨d, cs, hcs⟩ := List.exists_cons_of_ne_nil v.ne_nil
    rw [hrest, hcs] at hc
    obtain rfl := Option.some.inj hc
    have hsep := (hcs ▸ v.raw).head
    simp only [isSeparator, Bool.or_eq_false_iff] at hsep
    exact hsep.1
  simp only [readAttribute, hname, hskip, hequals, hblank, attributeValue_written hrest hds,
    Except.map, hq]

/-- An attribute is read as it was written, if what follows cannot go on with it. -/
theorem readAttribute_written {a : WrittenAttribute} {p : Place} {ds : List Char}
    (hp : p.rest = a.chars ++ ds) (hds : EndsAttribute ds)
    (hequals : ∀ c ∈ (ds.dropWhile isIndent).head?, c ≠ '=' ∧ c ≠ '!') :
    ∃ t, readAttribute p = .ok (t, p.drop a.chars.length) ∧ t.lexeme = a.lexeme := by
  obtain ⟨n, v⟩ := a
  cases v with
  | none =>
    replace hp : p.rest = n.chars ++ ds := by simpa [WrittenAttribute.chars] using hp
    have hname := n.attributeName_append hp (.inl hds)
    have hnone : equalsEnd? ((p.drop n.chars.length).skip isIndent) = none := by
      refine equalsEnd?_eq_none ?_
      rwa [Place.rest_skip, Place.rest_drop, hp, List.drop_left]
    refine ⟨.read (.attr (String.ofList n.chars) .bare) p (p.drop n.chars.length), ?_, rfl⟩
    simp only [readAttribute, hname, hnone, WrittenAttribute.chars, Option.elim, List.append_nil]
  | some v =>
    replace hp : p.rest = n.chars ++ '=' :: (v.chars ++ ds) := by
      simpa [WrittenAttribute.chars] using hp
    refine ⟨_, readAttribute_valued n v hp hds ?_, rfl⟩
    rw [Place.drop_drop, Place.drop_drop]
    simp only [WrittenAttribute.chars, Option.elim, List.length_append, List.length_cons]
    congr 1
    omega

/-! ## Reading lists -/

section Lists

variable {gap : Nat → Separator} {a : WrittenAttribute} {as : List WrittenAttribute}
  {sep cs : List Char}

/-- Behind an attribute the list goes on with a separator, or there are no more attributes. -/
theorem written_cons (gap : Nat → Separator) (a : WrittenAttribute) (as : List WrittenAttribute) :
    ∃ sep : List Char, (∀ c ∈ sep, isSeparator c = true) ∧ (as ≠ [] → sep ≠ []) ∧
      written gap (a :: as) = a.chars ++ (sep ++ written gap as) := by
  cases as with
  | nil => exact ⟨[], by simp, by simp, by simp [written]⟩
  | cons b as =>
    exact ⟨(gap as.length).chars, (gap as.length).all_separators, fun _ => (gap as.length).ne_nil,
      rfl⟩

/-- A written attribute starts with a character of its name. -/
theorem chars_head (a : WrittenAttribute) : ∃ c ds, a.chars = c :: ds ∧
    isSeparator c = false ∧ c ∉ ['(', ')', '=', '!'] := by
  obtain ⟨c, ds, hc⟩ := List.exists_cons_of_ne_nil a.name.ne_nil
  exact ⟨c, ds ++ a.value.elim [] fun v => '=' :: v.chars, by rw [WrittenAttribute.chars, hc]; rfl,
    a.name.no_end c (hc ▸ List.mem_cons_self)⟩

/-- A list starts with a character of its first name, or with the closing parenthesis. -/
theorem written_head (gap : Nat → Separator) (as : List WrittenAttribute) (cs : List Char) :
    ∃ c ds, written gap as ++ ')' :: cs = c :: ds ∧ isSeparator c = false ∧ c ≠ '=' ∧ c ≠ '!' := by
  cases as with
  | nil => exact ⟨')', cs, rfl, by decide, by decide, by decide⟩
  | cons a as =>
    obtain ⟨c, ds, hc, hsep, hend⟩ := chars_head a
    obtain ⟨sep, -, -, hw⟩ := written_cons gap a as
    exact ⟨c, ds ++ (sep ++ written gap as) ++ ')' :: cs, by rw [hw, hc]; rfl, hsep,
      by rintro rfl; simp at hend, by rintro rfl; simp at hend⟩

/-- Over separators nothing comes that would go on with an attribute before them. -/
theorem dropWhile_separators (hsep : ∀ c ∈ sep, isSeparator c = true) :
    ∀ c ∈ ((sep ++ (written gap as ++ ')' :: cs)).dropWhile isIndent).head?, c ≠ '=' ∧ c ≠ '!' := by
  induction sep with
  | nil =>
    obtain ⟨c, ds, hds, hc, hequals⟩ := written_head gap as cs
    have hindent : ¬isIndent c = true := fun hi => by
      simp [isSeparator, isBlank_of_isIndent hi] at hc
    rw [List.nil_append, hds, List.dropWhile_cons_of_neg hindent]
    rintro d ⟨rfl⟩
    exact hequals
  | cons c sep ih =>
    have hc := hsep c List.mem_cons_self
    rw [List.cons_append, List.dropWhile_cons]
    split
    · exact ih fun d hd => hsep d (List.mem_cons_of_mem c hd)
    · rintro d ⟨rfl⟩
      exact ⟨by rintro rfl; simp [isSeparator, isBlank] at hc,
        by rintro rfl; simp [isSeparator, isBlank] at hc⟩

/-- An attribute ends before separators, and before the end of the list. -/
theorem endsAttribute_separators (hsep : ∀ c ∈ sep, isSeparator c = true)
    (hne : as ≠ [] → sep ≠ []) : EndsAttribute (sep ++ (written gap as ++ ')' :: cs)) := by
  intro d hd
  cases sep with
  | nil =>
    obtain rfl : as = [] := Decidable.not_not.1 fun has => hne has rfl
    exact .inr (Option.some.inj hd).symm
  | cons e sep => exact .inl (Option.some.inj hd ▸ hsep e List.mem_cons_self)

/-- A list of attributes is read as it was written, behind any separators. -/
theorem attributesFrom_written (start : Place) {p : Place} (hsep : ∀ c ∈ sep, isSeparator c = true)
    (hp : p.rest = sep ++ (written gap as ++ ')' :: cs)) : ∃ ts q,
      attributesFrom start p = .ok (ts, q) ∧
      ts.map Token.lexeme = as.map WrittenAttribute.lexeme ++ [.closeAttributes] ∧
      q.rest = cs := by
  induction as generalizing p sep with
  | nil =>
    have hskip : (p.skip isSeparator).rest = ')' :: cs := by
      rw [Place.rest_skip, hp, List.dropWhile_append_of_pos hsep]
      rfl
    refine ⟨_, _, attributesFrom_close hskip, rfl, ?_⟩
    rw [Place.rest_drop, hskip]
    rfl
  | cons a as ih =>
    obtain ⟨sep', hsep', hne, hw⟩ := written_cons gap a as
    obtain ⟨c, ds, hchars, hc, hend⟩ := chars_head a
    have hskip : (p.skip isSeparator).rest =
        a.chars ++ (sep' ++ (written gap as ++ ')' :: cs)) := by
      rw [Place.rest_skip, hp, List.dropWhile_append_of_pos hsep, hw, hchars]
      simp only [List.cons_append, List.append_assoc]
      exact List.dropWhile_cons_of_neg (Bool.eq_false_iff.1 hc)
    obtain ⟨t, hread, ht⟩ := readAttribute_written hskip (endsAttribute_separators hsep' hne)
      (dropWhile_separators hsep')
    have hrest : ((p.skip isSeparator).drop a.chars.length).rest =
        sep' ++ (written gap as ++ ')' :: cs) := by rw [Place.rest_drop, hskip, List.drop_left]
    -- The separators behind the attribute are those before the further ones.
    obtain ⟨ts, q, hmore, hts, hq⟩ := ih hsep' hrest
    have hnil : (p.skip isSeparator).rest ≠ [] := by
      rw [hskip, hchars]
      exact List.cons_ne_nil _ _
    have hclose : (p.skip isSeparator).rest.head? ≠ some ')' := by
      rw [hskip, hchars]
      rintro ⟨⟩
      simp at hend
    refine ⟨t :: ts, q, ?_, ?_, hq⟩
    · rw [attributesFrom_attr hnil hclose, hread, Except.bind, hmore]
      rfl
    · rw [List.map_cons, hts, ht]
      rfl

end Lists

/-! ## Tags -/

/-- A tag with a list of attributes, up to the end of a text. -/
theorem tagHead_written (n : TagName) (gap : Nat → Separator) (as : List WrittenAttribute)
    {p : Place} (hp : p.rest = n.chars ++ '(' :: (written gap as ++ [')'])) : ∃ ts q,
      tagHead p = .ok (ts, q) ∧ q.rest = [] ∧
      ts.map Token.lexeme = .tag (String.ofList n.chars) :: .openAttributes ::
        (as.map WrittenAttribute.lexeme ++ [.closeAttributes]) := by
  have hname : tagName? p.rest = some n.chars := by
    rw [hp]
    exact n.tagName?_append (by rintro c ⟨rfl⟩; rfl)
  have hopen : (p.drop n.chars.length).rest = '(' :: (written gap as ++ [')']) := by
    rw [Place.rest_drop, hp, List.drop_left]
  have hlist : ((p.drop n.chars.length).drop 1).rest = [] ++ (written gap as ++ ')' :: []) := by
    rw [Place.rest_drop, hopen]
    rfl
  obtain ⟨ts, q, hattrs, hts, hq⟩ :=
    attributesFrom_written (p.drop n.chars.length) (by simp) hlist
  have hnone : shorthand? (p.drop n.chars.length) = none :=
    shorthand?_eq_none (by rw [hopen]; rintro c ⟨rfl⟩; rfl)
  have hend : tagParts q = .ok ([], q) := tagParts_of_head (by simp [hq])
  have hparts : tagParts (p.drop n.chars.length) = .ok (.read .openAttributes
      (p.drop n.chars.length) ((p.drop n.chars.length).drop 1) :: ts, q) := by
    rw [tagParts_list hnone (by rw [hopen]; rfl), attributeList, hattrs, Scan.after_ok,
      Except.bind, hend, Scan.after_ok, List.append_nil]
    rfl
  refine ⟨.read (.tag (String.ofList n.chars)) p (p.drop n.chars.length) :: .read .openAttributes
    (p.drop n.chars.length) ((p.drop n.chars.length).drop 1) :: ts, q, ?_, hq, ?_⟩
  · simp only [tagHead, hname, if_neg n.not_keyword, hparts, Scan.after_ok, List.singleton_append]
  · rw [List.map_cons, List.map_cons, hts]
    rfl

section Words

variable {p : Place} {c : Char} {cs : List Char} (hp : p.rest = c :: cs) (hw : isWord c = true)
include hp hw

theorem takeWhile_isIndent_of_isWord : p.rest.takeWhile isIndent = [] :=
  OpensHead.takeWhile_isIndent (.inl hw) hp

theorem not_blank_of_isWord : ¬isBlankText p.line = true :=
  Bool.eq_false_iff.1 (OpensHead.not_blank_line (.inl hw) hp)

end Words

/-- Lists of attributes are read as they are written: a tag with such a list is cut into its
    name, the opening parenthesis, the attributes in order with their names and values, the
    closing parenthesis and the end of the text. -/
theorem Token.scan_written (n : TagName) (gap : Nat → Separator) (as : List WrittenAttribute) :
    (Token.scan (String.ofList (n.chars ++ '(' :: (written gap as ++ [')'])))).map
        (List.map Token.lexeme) =
      .ok (.tag (String.ofList n.chars) :: .openAttributes ::
        (as.map WrittenAttribute.lexeme ++ [.closeAttributes, .eof])) := by
  obtain ⟨c, ds, hc, hw⟩ := n.exists_cons
  generalize htext : String.ofList (n.chars ++ '(' :: (written gap as ++ [')'])) = text
  have hp : (Place.ofText text).rest = n.chars ++ '(' :: (written gap as ++ [')']) := by
    rw [← htext]
    exact String.toList_ofList
  have hcons : (Place.ofText text).rest = c :: (ds ++ '(' :: (written gap as ++ [')'])) := by
    rw [hp, hc]
    rfl
  have hindent := takeWhile_isIndent_of_isWord hcons hw
  have hzero : (Place.ofText text).indent = 0 := by
    rw [Place.indent, indentWidth, hindent, List.length_nil]
  obtain ⟨ts, q, hhead, hq, hts⟩ := tagHead_written n gap as hp
  have hcontent : lineContent 0 (Place.ofText text) = .ok (ts, q.nextLine) := by
    rw [lineContent_of_isWord hcons hw, tagLine_body hhead (by simp [hq]), tagBody,
      if_pos (by rw [atLineEnd, hq]), Scan.after_ok, List.append_nil]
  have hnext : q.nextLine.rest = [] := by rw [Place.rest_nextLine, hq]; rfl
  rw [Token.scan, scanLines_line (by simp [hcons]) (not_blank_of_isWord hcons hw)
    (by simp [mixesIndent, hindent]) (by rw [hzero]; rfl)
    (by rw [hzero, Place.drop_zero]; exact hcontent), scanLines_end hnext]
  simp [Except.map, hts, closing]

/-- A list on two lines, with a parenthesis in a string in a group. -/
example :
    let string : IsRaw true ['\'', ')', '\''] :=
      @IsRaw.string _ _ [')'] [] (.inl rfl) (.plain (by decide) (by decide) .nil) .nil
    let group : IsRaw true ['[', 'c', ',', ' ', '\'', ')', '\'', ']', ' ', 'd'] :=
      @IsRaw.group _ _ ']' ['c', ',', ' ', '\'', ')', '\''] [' ', 'd'] (by decide) (by decide)
        (.plain (by decide) (.separator rfl (.separator rfl string)))
        (.separator rfl (.plain (by decide) .nil))
    let value : RawValue :=
      ⟨['f', '(', '[', 'c', ',', ' ', '\'', ')', '\'', ']', ' ', 'd', ')'], by decide,
        .plain (by decide) (@IsRaw.group _ _ ')' _ [] (by decide) (by decide) group .nil)⟩
    let b : AttributeName := ⟨['b'], by simp, by simp, by simp [isSeparator, isBlank]⟩
    let e : AttributeName := ⟨['e'], by simp, by simp, by simp [isSeparator, isBlank]⟩
    let gap : Separator := ⟨[',', '\n', ' '], by simp, List.all_eq_true.1 rfl⟩
    let attrs : List WrittenAttribute := [⟨b, some value⟩, ⟨e, none⟩]
    let text := String.ofList ('a' :: '(' :: (written (fun _ => gap) attrs ++ [')']))
    text = "a(b=f([c, ')'] d),\n e)" ∧
      attrs.map WrittenAttribute.lexeme = [.attr "b" (.raw "f([c, ')'] d)"), .attr "e" .bare] ∧
      (Token.scan text).toOption.map (·.map Token.lexeme) =
        some (.tag "a" :: .openAttributes ::
          (attrs.map WrittenAttribute.lexeme ++ [.closeAttributes, .eof])) := by
  decide +kernel

end SlotMarkup
