import SlotMarkup.Proofs.ReaderEquations

/-!
# Texts byte by byte

The markup has a meaning for ASCII characters only. A text can therefore be read byte by
byte, each byte taken for the character with its number (`spell`). A character of ASCII is
its own byte, and the bytes of any other are none of ASCII, so that they are taken for
characters without a meaning, like the one they spell. What is read up to a character of
ASCII is then as many bytes as are in its characters:

* `takeWhile_spell`: a run of characters of a class;
* `nameLength_spell`: the name of an attribute;
* `quotedLength?_spell`: a string, although a backslash escapes one byte only.

A text is cut between characters alone (`slice?`), and so not at every byte.

* `slice?_eq_some_iff`: where a text can be cut.
-/

namespace SlotMarkup

/-! ## Bytes -/

/-- A byte, taken for the character with its number. -/
def asChar (b : UInt8) : Char := Char.ofNat b.toNat

/-- The bytes of a character, taken for characters. -/
def spellChar (c : Char) : List Char := (String.utf8EncodeChar c).map asChar

/-- The bytes of a text, taken for characters. -/
def spell (cs : List Char) : List Char := cs.flatMap spellChar

/-- The characters that are one byte. -/
def IsAscii (c : Char) : Prop := c.toNat < 128

instance (c : Char) : Decidable (IsAscii c) := inferInstanceAs (Decidable (c.toNat < 128))

/-- A class that has all characters outside ASCII or none of them. -/
def AsciiClass (f : Char → Bool) : Prop := ∀ c d, ¬IsAscii c → ¬IsAscii d → f c = f d

/-- A byte and the character it is taken for have the same number. -/
theorem toNat_asChar (b : UInt8) : (asChar b).toNat = b.toNat := by
  have hb : b.toNat < 256 := b.toNat_lt
  rw [asChar, Char.ofNat, dif_pos (.inl (Nat.lt_trans hb (by decide)))]
  rfl

/-- A character of ASCII is spelled by itself. -/
theorem spellChar_of_ascii {c : Char} (h : IsAscii c) : spellChar c = [c] := by
  have hv : c.val.toNat ≤ 127 := Nat.le_of_lt_succ h
  have hbyte : (UInt8.ofNat c.val.toNat).toNat = c.toNat := by
    rw [UInt8.toNat_ofNat', Nat.mod_eq_of_lt (by omega)]
    rfl
  rw [spellChar, String.utf8EncodeChar, if_pos hv, List.map_singleton, asChar, hbyte,
    Char.ofNat_toNat]

/-- All bytes of a character outside ASCII have the highest bit. -/
theorem le_of_mem_utf8EncodeChar {c : Char} (h : ¬IsAscii c) {b : UInt8}
    (hb : b ∈ String.utf8EncodeChar c) : 128 ≤ b.toNat := by
  have hv : ¬c.val.toNat ≤ 127 := fun hle => h (Nat.lt_succ_of_le hle)
  rw [String.utf8EncodeChar, if_neg hv] at hb
  split at hb
  · simp only [List.mem_cons, List.not_mem_nil, or_false] at hb
    rcases hb with rfl | rfl
    all_goals
      rw [UInt8.toNat_ofNat']
      omega
  · split at hb
    · simp only [List.mem_cons, List.not_mem_nil, or_false] at hb
      rcases hb with rfl | rfl | rfl
      all_goals
        rw [UInt8.toNat_ofNat']
        omega
    · simp only [List.mem_cons, List.not_mem_nil, or_false] at hb
      rcases hb with rfl | rfl | rfl | rfl
      all_goals
        rw [UInt8.toNat_ofNat']
        omega

/-- No character outside ASCII is spelled with one of ASCII. -/
theorem not_ascii_of_mem_spellChar {c d : Char} (h : ¬IsAscii c) (hd : d ∈ spellChar c) :
    ¬IsAscii d := by
  obtain ⟨b, hb, rfl⟩ := List.mem_map.1 hd
  rw [IsAscii, toNat_asChar, Nat.not_lt]
  exact le_of_mem_utf8EncodeChar h hb

/-- A character is spelled with as many characters as it has bytes. -/
theorem length_spellChar (c : Char) : (spellChar c).length = c.utf8Size := by
  rw [spellChar, List.length_map, String.length_utf8EncodeChar]

theorem utf8Size_of_ascii {c : Char} (h : IsAscii c) : c.utf8Size = 1 := by
  rw [← length_spellChar, spellChar_of_ascii h, List.length_singleton]

theorem exists_spellChar (c : Char) : ∃ d ds, spellChar c = d :: ds :=
  List.exists_cons_of_length_pos (length_spellChar c ▸ c.utf8Size_pos)

@[simp] theorem spell_nil : spell [] = [] := rfl

theorem spell_cons (c : Char) (cs : List Char) : spell (c :: cs) = spellChar c ++ spell cs := rfl

theorem spell_cons_ascii {c : Char} (h : IsAscii c) (cs : List Char) :
    spell (c :: cs) = c :: spell cs := by rw [spell_cons, spellChar_of_ascii h]; rfl

/-- A text is spelled part by part. -/
theorem spell_append (cs ds : List Char) : spell (cs ++ ds) = spell cs ++ spell ds :=
  List.flatMap_append

/-- A text is spelled with as many characters as it has bytes. -/
theorem length_spell (cs : List Char) : (spell cs).length = byteSize cs := by
  induction cs with
  | nil => rfl
  | cons c cs ih => rw [spell_cons, List.length_append, length_spellChar, ih, byteSize_cons]

/-- Only the empty text has no bytes. -/
theorem spell_eq_nil_iff {cs : List Char} : spell cs = [] ↔ cs = [] := by
  cases cs with
  | nil => simp
  | cons c cs =>
    obtain ⟨d, ds, h⟩ := exists_spellChar c
    simp [spell_cons, h]

/-- A character of ASCII starts a text if its byte starts the bytes of the text. -/
theorem head?_spell {c : Char} (hc : IsAscii c) (cs : List Char) :
    (spell cs).head? = some c ↔ cs.head? = some c := by
  cases cs with
  | nil => simp
  | cons d cs =>
    by_cases hd : IsAscii d
    · rw [spell_cons_ascii hd, List.head?_cons, List.head?_cons]
    · obtain ⟨e, es, he⟩ := exists_spellChar d
      have hne : e ≠ c := fun h =>
        not_ascii_of_mem_spellChar hd (he ▸ List.mem_cons_self) (h ▸ hc)
      have hne' : d ≠ c := fun h => hd (h ▸ hc)
      simp [spell_cons, he, hne, hne']

/-! ## Classes -/

section Classes

variable {f : Char → Bool} (hf : AsciiClass f)
include hf

/-- What a character is spelled with is in the same classes as the character. -/
theorem AsciiClass.of_mem_spellChar {c d : Char} (hd : d ∈ spellChar c) : f d = f c := by
  by_cases hc : IsAscii c
  · rw [spellChar_of_ascii hc, List.mem_singleton] at hd
    rw [hd]
  · exact hf d c (not_ascii_of_mem_spellChar hc hd) hc

/-- The bytes of a text are all in a class if the characters are. -/
theorem all_spell (cs : List Char) : (spell cs).all f = cs.all f := by
  induction cs with
  | nil => rfl
  | cons c cs ih =>
    obtain ⟨d, ds, hd⟩ := exists_spellChar c
    have hc : (spellChar c).all f = f c := by
      rw [Bool.eq_iff_iff, List.all_eq_true]
      refine ⟨fun h => ?_, fun h e he => (hf.of_mem_spellChar he).trans h⟩
      have hmem : d ∈ spellChar c := hd ▸ List.mem_cons_self
      rw [← hf.of_mem_spellChar hmem, h d hmem]
    rw [spell_cons, List.all_append, ih, hc, List.all_cons]

/-- A run of characters in a class is spelled as the run of bytes in it. -/
theorem takeWhile_spell (cs : List Char) : (spell cs).takeWhile f = spell (cs.takeWhile f) := by
  induction cs with
  | nil => rfl
  | cons c cs ih =>
    by_cases hc : f c = true
    · rw [spell_cons, List.takeWhile_append_of_pos fun d hd => (hf.of_mem_spellChar hd).trans hc,
        ih, List.takeWhile_cons_of_pos hc, spell_cons]
    · obtain ⟨d, ds, hd⟩ := exists_spellChar c
      have hd' : ¬f d = true := by rwa [hf.of_mem_spellChar (hd ▸ List.mem_cons_self)]
      rw [spell_cons, hd, List.cons_append, List.takeWhile_cons_of_neg hd',
        List.takeWhile_cons_of_neg hc, spell_nil]

end Classes

/-- A class of ASCII characters alone has none of the others. -/
theorem asciiClass_of_ascii {f : Char → Bool} (h : ∀ c, f c = true → IsAscii c) :
    AsciiClass f := by
  have hfalse (c : Char) (hc : ¬IsAscii c) : f c = false :=
    Bool.eq_false_iff.2 fun hf => hc (h c hf)
  exact fun c d hc hd => (hfalse c hc).trans (hfalse d hd).symm

/-- The lexer knows no blank outside ASCII. -/
theorem isAscii_of_isBlank {c : Char} (h : isBlank c = true) : IsAscii c := by
  simp only [isBlank, Bool.or_eq_true, beq_iff_eq] at h
  rcases h with (((rfl | rfl) | rfl) | rfl) | rfl <;> decide

theorem isAscii_of_isSeparator {c : Char} (h : isSeparator c = true) : IsAscii c := by
  rw [isSeparator, Bool.or_eq_true, beq_iff_eq] at h
  rcases h with h | rfl
  · exact isAscii_of_isBlank h
  · decide

theorem isAscii_of_isQuote {c : Char} (h : IsQuote c) : IsAscii c := by
  rcases h with rfl | rfl | rfl <;> decide

/-- The letters and digits of words are those of ASCII, and so is the underscore. -/
theorem isAscii_of_isWord {c : Char} (h : isWord c = true) : IsAscii c := by
  have := toNat_of_isWord h
  rw [IsAscii]
  omega

theorem asciiClass_isBlank : AsciiClass isBlank := asciiClass_of_ascii fun _ => isAscii_of_isBlank

theorem asciiClass_isIndent : AsciiClass isIndent :=
  asciiClass_of_ascii fun _ h => isAscii_of_isBlank (isBlank_of_isIndent h)

/-- A line goes on over all characters outside ASCII. -/
theorem asciiClass_ne_newline : AsciiClass (· != '\n') := fun c d hc hd => by
  have hne {e : Char} (he : ¬IsAscii e) : (e != '\n') = true := bne_iff_ne.2 fun h => by
    subst h
    exact he (by decide)
  exact (hne hc).trans (hne hd).symm

theorem asciiClass_isSeparator : AsciiClass isSeparator :=
  asciiClass_of_ascii fun _ => isAscii_of_isSeparator

theorem asciiClass_isNamePart : AsciiClass isNamePart := asciiClass_of_ascii fun c h => by
  rw [isNamePart, Bool.or_eq_true, beq_iff_eq] at h
  rcases h with h | rfl
  · exact isAscii_of_isWord h
  · decide

theorem asciiClass_isTagNamePart : AsciiClass isTagNamePart := asciiClass_of_ascii fun c h => by
  rw [isTagNamePart, isNameJoint, Bool.or_eq_true, Bool.or_eq_true, beq_iff_eq, beq_iff_eq] at h
  rcases h with h | rfl | rfl
  · exact isAscii_of_isWord h
  all_goals decide

/-! ## Strings and names -/

/-- A string ends at the same quote. If a backslash escapes the first of several bytes, the
    others are neither quotes nor backslashes. -/
theorem quotedLength?_spell {quote : Char} (hq : IsQuote quote) (cs : List Char) :
    quotedLength? quote (spell cs) =
      (quotedLength? quote cs).map fun n => byteSize (cs.take n) := by
  have hplain {c : Char} (hc : c ≠ '\\' ∧ c ≠ quote ∨ ¬IsAscii c) :
      ∀ d ∈ spellChar c, d ≠ '\\' ∧ d ≠ quote := by
    intro d hd
    by_cases ha : IsAscii c
    · rw [spellChar_of_ascii ha, List.mem_singleton] at hd
      exact hd ▸ hc.resolve_right (not_not_intro ha)
    · have hd := not_ascii_of_mem_spellChar ha hd
      exact ⟨fun h => hd (h ▸ by decide), fun h => hd (h ▸ isAscii_of_isQuote hq)⟩
  fun_induction quotedLength? quote cs with
  | case1 => rfl
  | case2 => rfl
  | case3 c cs ih =>
    obtain ⟨d, ds, hd⟩ := exists_spellChar c
    have hlen : ds.length + 1 = c.utf8Size := by rw [← length_spellChar, hd, List.length_cons]
    -- The backslash escapes the byte `d`. If there are further bytes `ds` of the same
    -- character, they are passed as if they were plain characters.
    have hrest : quotedLength? quote (ds ++ spell cs) =
        (quotedLength? quote (spell cs)).map (ds.length + ·) := by
      by_cases hc : IsAscii c
      · obtain ⟨-, rfl⟩ := List.cons.inj (hd.symm.trans (spellChar_of_ascii hc))
        simp
      · exact quotedLength?_plain
          (fun e he => hplain (.inr hc) e (hd ▸ List.mem_cons_of_mem d he)) (spell cs)
    rw [spell_cons_ascii (by decide), spell_cons, hd, List.cons_append, quotedLength?, hrest, ih,
      Option.map_map, Option.map_map, Option.map_map]
    refine Option.map_congr fun n _ => ?_
    have hone : Char.utf8Size '\\' = 1 := rfl
    simp only [Function.comp_apply, List.take_succ_cons, byteSize_cons]
    omega
  | case4 =>
    rw [spell_cons_ascii (isAscii_of_isQuote hq), quotedLength?_quote hq.ne.1, Option.map_some,
      List.take_succ_cons, List.take_zero, byteSize_cons, byteSize_nil,
      utf8Size_of_ascii (isAscii_of_isQuote hq)]
  | case5 c cs hend hesc hc ih =>
    have hslash : c ≠ '\\' := fun h => by
      cases cs with
      | nil => exact hend h rfl
      | cons d cs => exact hesc d cs h rfl
    rw [spell_cons, quotedLength?_plain (hplain (.inl ⟨hslash, hc⟩)), ih, Option.map_map,
      Option.map_map]
    refine Option.map_congr fun n _ => ?_
    simp only [Function.comp_apply, List.take_succ_cons, byteSize_cons, length_spellChar]

/-- A name ends at the same character. -/
theorem nameLength_spell (cs : List Char) :
    nameLength (spell cs) = byteSize (cs.take (nameLength cs)) := by
  have hplain {c d : Char} (hc : ¬IsAscii c) (hd : d ∈ spellChar c ∨ d = c) :
      isSeparator d = false ∧ d ∉ ['(', ')', '=', '!'] := by
    have hd : ¬IsAscii d := hd.elim (not_ascii_of_mem_spellChar hc) fun h => h ▸ hc
    refine ⟨Bool.eq_false_iff.2 fun h => hd (isAscii_of_isSeparator h), fun h => hd ?_⟩
    simp only [List.mem_cons, List.not_mem_nil, or_false] at h
    rcases h with rfl | rfl | rfl | rfl <;> decide
  induction cs with
  | nil => rfl
  | cons c cs ih =>
    by_cases hc : IsAscii c
    · simp only [spell_cons_ascii hc, nameLength, head?_spell (c := '=') (by decide)]
      split
      · rfl
      · split
        · rfl
        · rw [List.take_succ_cons, byteSize_cons, utf8Size_of_ascii hc, ih, Nat.add_comm]
    · -- Neither the character nor one of its bytes ends a name.
      have hone : nameLength (c :: cs) = 1 + nameLength cs :=
        @nameLength_plain [c] (fun d hd => hplain hc (.inr (List.mem_singleton.1 hd))) cs
      rw [spell_cons, nameLength_plain fun d hd => hplain hc (.inl hd), ih, hone, Nat.add_comm 1,
        List.take_succ_cons, byteSize_cons, length_spellChar]

/-! ## Cuts -/

/-- The parts of a text before and after an offset, which is between two characters or at an
    end of the text. -/
def splitAt? : Nat → List Char → Option (List Char × List Char)
  | 0, cs => some ([], cs)
  | _ + 1, [] => none
  | n + 1, c :: cs =>
    if c.utf8Size ≤ n + 1 then (splitAt? (n + 1 - c.utf8Size) cs).map fun r => (c :: r.1, r.2)
    else none

/-- The text between two offsets, in order, of which each is between two characters or at an
    end of the text. -/
def slice? (cs : List Char) (start stop : Nat) : Option (List Char) :=
  if start ≤ stop then
    (splitAt? start cs).bind fun r => (splitAt? (stop - start) r.2).map Prod.fst
  else none

/-- A text can be cut behind any part that it starts with. -/
theorem splitAt?_append (ds es : List Char) :
    splitAt? (byteSize ds) (ds ++ es) = some (ds, es) := by
  induction ds with
  | nil => rw [byteSize_nil, splitAt?, List.nil_append]
  | cons d ds ih =>
    obtain ⟨n, hn⟩ := Nat.exists_eq_add_of_lt (Nat.lt_add_right (byteSize ds) d.utf8Size_pos)
    have hrest : n + 1 - d.utf8Size = byteSize ds := by omega
    rw [List.cons_append, byteSize_cons, hn, Nat.zero_add, splitAt?, if_pos (by omega), hrest, ih]
    rfl

/-- Where a text is cut, the first part has as many bytes as the offset says. -/
theorem splitAt?_eq_some_iff {n : Nat} {cs ds es : List Char} :
    splitAt? n cs = some (ds, es) ↔ cs = ds ++ es ∧ n = byteSize ds := by
  refine ⟨fun h => ?_, by rintro ⟨rfl, rfl⟩; exact splitAt?_append ds es⟩
  fun_induction splitAt? n cs generalizing ds es with
  | case1 =>
    obtain ⟨rfl, rfl⟩ := Prod.mk.inj (Option.some.inj h)
    exact ⟨rfl, rfl⟩
  | case2 => simp at h
  | case3 n c cs hle ih =>
    obtain ⟨⟨as, bs⟩, has, hcons⟩ := Option.map_eq_some_iff.1 h
    obtain ⟨rfl, rfl⟩ := Prod.mk.inj hcons
    obtain ⟨rfl, hn⟩ := ih has
    exact ⟨rfl, by rw [byteSize_cons, ← hn, Nat.add_sub_cancel' hle]⟩
  | case4 => simp at h

/-- A text can be cut between two offsets just if each of them is the size of a part that the text
    starts with. What is cut out then lies between the two parts. -/
theorem slice?_eq_some_iff {cs ds : List Char} {start stop : Nat} :
    slice? cs start stop = some ds ↔ ∃ pre post, cs = pre ++ (ds ++ post) ∧
      start = byteSize pre ∧ stop = byteSize (pre ++ ds) := by
  rw [slice?]
  split
  · rename_i hle
    simp only [Option.bind_eq_some_iff, Option.map_eq_some_iff, Prod.exists, splitAt?_eq_some_iff,
      byteSize_append]
    constructor
    · rintro ⟨pre, rest, ⟨rfl, rfl⟩, as, post, ⟨rfl, hstop⟩, rfl⟩
      exact ⟨pre, post, rfl, rfl, by omega⟩
    · rintro ⟨pre, post, rfl, rfl, rfl⟩
      exact ⟨pre, ds ++ post, ⟨rfl, rfl⟩, ds, post, ⟨rfl, by omega⟩, rfl⟩
  · simp only [reduceCtorEq, false_iff, byteSize_append]
    rintro ⟨pre, post, -, rfl, rfl⟩
    omega

end SlotMarkup
