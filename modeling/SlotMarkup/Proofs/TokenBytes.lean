import Mathlib.Data.List.Basic
import SlotMarkup.Proofs.ByteLines
import SlotMarkup.Proofs.SlotWords
import SlotMarkup.Proofs.TokenRanges

/-!
# Tokens by bytes

A text is searched for tokens by its bytes, in two steps. All places of the reserved word are
looked up first, from the left and without overlaps; then as many bytes are cut out behind each of
them as a slot has digits, which may fail inside a character or at the end of the text. A text that
may be a token as a whole is told by its length instead. Both ways end at one reader of digits,
which adds them up in a machine word and fails where that overflows.

For all numbers of slots that a machine word can hold, this comes to the same tokens as taking a
text apart character by character does.

* `slotOfDigits?_eq`: the reader of digits;
* `wholeSlot?_eq`: texts that are one token;
* `scan_eq_find`: the tokens in a text;
* `readers_agree`: all readers accept what the writer writes.
-/

namespace SlotMarkup

/-- A slice behind a text is one of what comes next. -/
theorem slice?_append (as ds : List Char) (n : Nat) :
    slice? (as ++ ds) (byteSize as) (byteSize as + n) = (splitAt? n ds).map Prod.fst := by
  rw [slice?, if_pos (Nat.le_add_right _ _), splitAt?_append, Option.bind_some,
    Nat.add_sub_cancel_left]

theorem asciiClass_isDigit : AsciiClass Char.isDigit := asciiClass_of_ascii fun _ h =>
  isAscii_of_isWord (Slots.isWord_of_isDigit h)

namespace Slots

variable {s : Slots}

/-! ## Digits -/

/-- The number of digits of a number, which is divided by ten until one digit is left. -/
def digitCount (n : Nat) : Nat := if 10 ≤ n then digitCount (n / 10) + 1 else 1

/-- The number of digits that every token has. -/
def digitWidth (s : Slots) : Nat := digitCount (s.count - 1)

/-- A number with one more digit, if it is a machine word. -/
def pushDigit? (n : Nat) (d : Char) : Option Nat :=
  let next := 10 * n + (d.toNat - '0'.toNat)
  if next < 2 ^ 64 then some next else none

/-- The number with some digits, if it is a machine word after each of them. -/
def wordOfDigits? (ds : List Char) : Option Nat := ds.foldlM pushDigit? 0

/-- The slot that a number names, if all bytes of it are digits and there are as many as every
    token has. -/
def slotOfDigits? (s : Slots) (ds : List Char) : Option Nat :=
  if byteSize ds = s.digitWidth ∧ (spell ds).all Char.isDigit then
    (wordOfDigits? ds).filter (· < s.count)
  else none

/-- Dividing by ten counts the digits. -/
theorem digitCount_eq (n : Nat) : digitCount n = (Nat.toDigits 10 n).length := by
  fun_induction digitCount n with
  | case1 n h ih => rw [Nat.toDigits_of_base_le (by decide) h, List.length_append, ih]; rfl
  | case2 n h => rw [Nat.toDigits_of_lt_base (Nat.lt_of_not_le h)]; rfl

theorem digitWidth_eq (s : Slots) : s.digitWidth = s.width := digitCount_eq _

/-- More digits make no number smaller, so that a number is too large if a part of it is. -/
theorem le_ofDigitChars (ds : List Char) (n : Nat) : n ≤ Nat.ofDigitChars 10 ds n := by
  rw [Nat.ofDigitChars_eq_ofDigitChars_zero]
  exact Nat.le_trans (Nat.le_mul_of_pos_left n (Nat.pow_pos (by decide))) (Nat.le_add_right _ _)

/-- Digits are read into a word as long as their number fits in it. -/
theorem foldlM_pushDigit? (ds : List Char) {n : Nat} (hn : n < 2 ^ 64) : ds.foldlM pushDigit? n =
    if Nat.ofDigitChars 10 ds n < 2 ^ 64 then some (Nat.ofDigitChars 10 ds n) else none := by
  induction ds generalizing n with
  | nil =>
    rw [Nat.ofDigitChars_nil, if_pos hn]
    rfl
  | cons d ds ih =>
    rw [List.foldlM_cons, Nat.ofDigitChars_cons, pushDigit?]
    by_cases hnext : 10 * n + (d.toNat - '0'.toNat) < 2 ^ 64
    · simp only [if_pos hnext]
      exact ih hnext
    · have hle := le_ofDigitChars ds (10 * n + (d.toNat - '0'.toNat))
      simp only [if_neg hnext]
      rw [if_neg (by omega)]
      rfl

theorem wordOfDigits?_eq (ds : List Char) : wordOfDigits? ds =
    if Nat.ofDigitChars 10 ds 0 < 2 ^ 64 then some (Nat.ofDigitChars 10 ds 0) else none :=
  foldlM_pushDigit? ds (by decide)

/-- The reader of digits reads the slot that the digits write. -/
theorem slotOfDigits?_eq (hcount : s.count < 2 ^ 64) (ds : List Char) :
    s.slotOfDigits? ds = s.readIndex? ds := by
  rw [slotOfDigits?, readIndex?, all_spell asciiClass_isDigit, digitWidth_eq]
  by_cases hall : ds.all Char.isDigit = true
  · have hsize : byteSize ds = ds.length :=
      byteSize_of_ascii fun c hc => utf8Size_of_isDigit (List.all_eq_true.1 hall c hc)
    rw [hsize, wordOfDigits?_eq]
    split
    · dsimp only
      by_cases hlt : Nat.ofDigitChars 10 ds 0 < s.count
      · rw [if_pos (Nat.lt_trans hlt hcount), if_pos hlt, Option.filter_some,
          if_pos (decide_eq_true hlt)]
      · rw [if_neg hlt]
        split
        · rw [Option.filter_some, if_neg (by simpa using hlt)]
        · rfl
    · rfl
  · rw [if_neg fun h => hall h.2, if_neg fun h => hall h.2]

/-- The number in a token has the width of the slots. -/
theorem byteSize_digits {index : Nat} (h : index < s.count) :
    byteSize (s.digits index) = s.width := by
  rw [byteSize_of_ascii fun c hc => utf8Size_of_isDigit (isDigit_of_mem_digits hc),
    length_digits h]

/-! ## Whole texts -/

/-- The slot that a text names if it is the reserved word and, behind it, as many bytes as every
    token has digits. -/
def wholeSlot? (s : Slots) (text : String) : Option Nat :=
  (mark.isPrefixOf? text.toList).bind fun ds =>
    if byteSize ds ≠ s.digitWidth then none else s.slotOfDigits? ds

/-- A token is found by its bytes as by its characters, if there are fewer slots than a word can
    count. -/
theorem wholeSlot?_eq (hcount : s.count < 2 ^ 64) (text : String) :
    s.wholeSlot? text = s.index? text := by
  ext i
  simp only [wholeSlot?, Option.bind_eq_some_iff, List.isPrefixOf?_eq_some_iff_append_eq,
    index?_eq_some_iff, slotOfDigits?_eq hcount, digitWidth_eq, token]
  constructor
  · rintro ⟨ds, htext, hi⟩
    split at hi
    · simp at hi
    · obtain ⟨hlt, rfl⟩ := readIndex?_eq_some_iff.1 hi
      exact ⟨hlt, htext.symm⟩
  · rintro ⟨hlt, htext⟩
    refine ⟨s.digits i, htext.symm, ?_⟩
    rw [if_neg (not_not_intro (byteSize_digits hlt)), readIndex?_eq_some_iff.2 ⟨hlt, rfl⟩]

/-! ## Searching -/

/-- The offsets of the reserved word in some bytes, the first of which is at `pos`. The search goes
    on behind every place where it was found. -/
def markOffsets (pos : Nat) (bs : List Char) : List Nat :=
  if mark.isPrefixOf bs then pos :: markOffsets (pos + mark.length) (bs.drop mark.length)
  else
    match bs with
    | [] => []
    | _ :: bs => markOffsets (pos + 1) bs
termination_by bs.length
decreasing_by
  · rename_i h
    have hle := (List.isPrefixOf_iff_prefix.1 h).length_le
    have hmark : mark.length = 18 := by decide
    rw [List.length_drop]
    omega
  · exact Nat.lt_succ_self _

/-- The token of the slot whose digits stand behind the reserved word at `start`. -/
def tokenFrom? (s : Slots) (cs : List Char) (start : Nat) : Option Occurrence :=
  let digitsStart := start + mark.length
  let stop := digitsStart + s.digitWidth
  ((slice? cs digitsStart stop).bind s.slotOfDigits?).map fun index => ⟨index, start, stop⟩

/-- Every token in a text, from the left. -/
def scan (s : Slots) (text : String) : List Occurrence :=
  (markOffsets 0 (Source.mk text).bytes).filterMap (s.tokenFrom? text.toList)

theorem markOffsets_nil (pos : Nat) : markOffsets pos [] = [] := by
  rw [markOffsets.eq_def]
  rfl

/-- The search for the mark goes on behind one that it found. -/
theorem markOffsets_mark (pos : Nat) (bs : List Char) :
    markOffsets pos (mark ++ bs) = pos :: markOffsets (pos + mark.length) bs := by
  rw [markOffsets.eq_def, if_pos (List.isPrefixOf_iff_prefix.2 (List.prefix_append _ _)),
    List.drop_left]

theorem markOffsets_cons {b : Char} {bs : List Char} (h : ¬mark <+: b :: bs) (pos : Nat) :
    markOffsets pos (b :: bs) = markOffsets (pos + 1) bs := by
  rw [markOffsets, if_neg fun hm => h (List.isPrefixOf_iff_prefix.1 hm)]

/-- The reserved word does not begin where its first letter is missing. -/
theorem not_starts_mark {b : Char} {bs : List Char} (h : b ≠ 'e') : ¬mark <+: b :: bs := by
  rintro ⟨rest, hrest⟩
  rw [mark_eq, List.cons_append] at hrest
  exact h (List.cons.inj hrest).1.symm

/-- Where the first letter of the mark is not, there is no mark. -/
theorem markOffsets_append {as : List Char} (h : ∀ a ∈ as, a ≠ 'e') (pos : Nat) (bs : List Char) :
    markOffsets pos (as ++ bs) = markOffsets (pos + as.length) bs := by
  induction as generalizing pos with
  | nil => rfl
  | cons a as ih =>
    rw [List.cons_append, markOffsets_cons (not_starts_mark (h a List.mem_cons_self)),
      ih (fun b hb => h b (List.mem_cons_of_mem _ hb)), List.length_cons, Nat.add_assoc,
      Nat.add_comm 1]

/-- Some characters of ASCII are the first bytes of a text if they are its first characters. -/
theorem prefix_spell_iff {as : List Char} (h : ∀ a ∈ as, IsAscii a) (cs : List Char) :
    as <+: spell cs ↔ as <+: cs := by
  induction as generalizing cs with
  | nil => simp
  | cons a as ih =>
    have ha := h a List.mem_cons_self
    cases cs with
    | nil => simp
    | cons c cs =>
      by_cases hc : IsAscii c
      · rw [spell_cons_ascii hc, List.cons_prefix_cons, List.cons_prefix_cons,
          ih fun b hb => h b (List.mem_cons_of_mem _ hb)]
      · obtain ⟨d, ds, hd⟩ := exists_spellChar c
        have hne : a ≠ d := fun had =>
          not_ascii_of_mem_spellChar hc (hd ▸ List.mem_cons_self) (had ▸ ha)
        have hne' : a ≠ c := fun hac => hc (hac ▸ ha)
        rw [spell_cons, hd, List.cons_append, List.cons_prefix_cons, List.cons_prefix_cons]
        exact iff_of_false (fun h => hne h.1) (fun h => hne' h.1)

theorem isAscii_of_mem_mark {c : Char} (h : c ∈ mark) : IsAscii c :=
  isAscii_of_isWord (isWord_of_mem_mark h)

theorem spell_digits (index : Nat) : spell (s.digits index) = s.digits index :=
  spell_of_ascii fun _ hd => isAscii_of_isWord (isWord_of_isDigit (isDigit_of_mem_digits hd))

/-- The search goes over the bytes of a character to those of the next one. -/
theorem markOffsets_spell_cons (pos : Nat) (c : Char) (cs : List Char) :
    markOffsets pos (spell (c :: cs)) =
      (if mark <+: c :: cs then [pos] else []) ++
        markOffsets (pos + c.utf8Size) (spell cs) := by
  by_cases hc : c = 'e'
  · subst hc
    have hascii : IsAscii 'e' := by decide
    by_cases hm : mark <+: 'e' :: cs
    · -- Behind the first letter of the reserved word, its others are passed one by one.
      obtain ⟨ds, hds⟩ := hm
      have hcs : cs = mark.tail ++ ds := (List.cons.inj hds).2.symm
      have htail : spell mark.tail = mark.tail :=
        spell_of_ascii fun a ha => isAscii_of_mem_mark (List.mem_of_mem_tail ha)
      have hspell : spell ('e' :: cs) = mark ++ spell ds := by
        rw [spell_cons_ascii hascii, hcs, spell_append, htail]
        rfl
      have hlength : pos + Char.utf8Size 'e' + mark.tail.length = pos + mark.length := by
        rw [Nat.add_assoc]
        rfl
      rw [if_pos ⟨ds, hds⟩, hspell, markOffsets_mark, hcs, spell_append, htail,
        markOffsets_append fun a => ne_of_mem_mark_tail, hlength]
      rfl
    · rw [if_neg hm, List.nil_append, spell_cons_ascii hascii, markOffsets_cons]
      · rfl
      · rwa [← spell_cons_ascii hascii, prefix_spell_iff fun a => isAscii_of_mem_mark]
  · have hbytes : ∀ d ∈ spellChar c, d ≠ 'e' := by
      intro d hd
      by_cases ha : IsAscii c
      · rw [spellChar_of_ascii ha, List.mem_singleton] at hd
        exact hd ▸ hc
      · rintro rfl
        exact not_ascii_of_mem_spellChar ha hd (by decide)
    rw [if_neg (not_starts_mark hc), List.nil_append, spell_cons, markOffsets_append hbytes,
      length_spellChar]

/-- As many bytes as a token has digits are its digits just if as many characters are. -/
theorem readIndex?_splitAt? (ds : List Char) :
    ((splitAt? s.width ds).map Prod.fst).bind s.readIndex? = s.readIndex? (ds.take s.width) := by
  ext i
  simp only [Option.bind_eq_some_iff, Option.map_eq_some_iff, Prod.exists, splitAt?_eq_some_iff,
    readIndex?_eq_some_iff]
  constructor
  · rintro ⟨_, ⟨_, rest, ⟨rfl, -⟩, rfl⟩, hi, rfl⟩
    exact ⟨hi, by rw [← length_digits hi, List.take_left]⟩
  · rintro ⟨hi, htake⟩
    refine ⟨s.digits i, ⟨s.digits i, ds.drop s.width, ⟨?_, (byteSize_digits hi).symm⟩, rfl⟩, hi, rfl⟩
    rw [← htake, List.take_append_drop]

/-- What is cut out of a text behind the reserved word is the number of a token. -/
theorem tokenFrom?_eq (hcount : s.count < 2 ^ 64) (pre ds : List Char) :
    s.tokenFrom? (pre ++ (mark ++ ds)) (byteSize pre) =
      (s.tokenAt? (mark ++ ds)).map fun r => ⟨r.1, byteSize pre, byteSize pre + s.tokenLength⟩ := by
  have hmark : byteSize mark = mark.length := byteSize_of_ascii fun _ => utf8Size_of_mem_mark
  have hslice : slice? (pre ++ (mark ++ ds)) (byteSize pre + mark.length)
      (byteSize pre + mark.length + s.width) = (splitAt? s.width ds).map Prod.fst := by
    rw [← List.append_assoc, ← hmark, ← byteSize_append, slice?_append]
  have hread : s.slotOfDigits? = s.readIndex? := funext (slotOfDigits?_eq hcount)
  rw [tokenFrom?, tokenAt?, if_pos (List.isPrefixOf_iff_prefix.2 (List.prefix_append _ _)),
    digitWidth_eq, hread, hslice, readIndex?_splitAt?, List.drop_left, Option.map_map, tokenLength,
    ← Nat.add_assoc]
  rfl

/-- Behind any text, the search finds the tokens where the text is cut apart. -/
theorem filterMap_markOffsets (hcount : s.count < 2 ^ 64) (pre cs : List Char) :
    (markOffsets (byteSize pre) (spell cs)).filterMap (s.tokenFrom? (pre ++ cs)) =
      s.occurrences (byteSize (pre ++ (s.cut cs).head)) (s.cut cs).tail := by
  fun_induction cut s cs generalizing pre with
  | case1 cs index rest h more ih =>
    obtain ⟨hi, rfl⟩ := tokenAt?_eq_some_iff.1 h
    have hmark : spell mark = mark := spell_of_ascii fun _ => isAscii_of_mem_mark
    have hskip : ∀ d ∈ s.digits index, d ≠ 'e' := fun d hd =>
      ne_of_mem_token_tail (List.mem_append_right _ hd)
    have hmore := ih (pre ++ s.token index)
    rw [byteSize_append, byteSize_append (pre ++ _), byteSize_append, byteSize_token hi,
      List.append_assoc] at hmore
    have hat := tokenFrom?_eq hcount pre (s.digits index ++ rest)
    rw [← List.append_assoc mark, ← token, h] at hat
    rw [token, List.append_assoc, spell_append, hmark, spell_append, spell_digits,
      markOffsets_mark, markOffsets_append hskip, length_digits hi, ← List.append_assoc mark,
      ← token, List.filterMap_cons_some hat, Nat.add_assoc, ← tokenLength, hmore, occurrences,
      List.append_nil]
  | case2 => rw [spell_nil, markOffsets_nil, List.filterMap_nil, occurrences]
  | case3 c cs h more ih =>
    have hmore := ih (pre ++ [c])
    have hone : byteSize [c] = c.utf8Size := Nat.add_zero _
    rw [List.append_assoc, byteSize_append pre [c], hone, List.append_assoc] at hmore
    rw [markOffsets_spell_cons, List.filterMap_append]
    split
    · -- The reserved word stands here, but no number of a slot behind it.
      rename_i hm
      obtain ⟨ds, hds⟩ := hm
      have hat := tokenFrom?_eq hcount pre ds
      rw [hds, h, Option.map_none] at hat
      rw [List.filterMap_cons_none hat, List.filterMap_nil, List.nil_append]
      exact hmore
    · exact hmore

/-- The search by bytes finds the tokens of a text. -/
theorem scan_eq_find (hcount : s.count < 2 ^ 64) (text : String) : s.scan text = s.find text := by
  rw [scan, Source.bytes_eq]
  exact filterMap_markOffsets hcount [] text.toList

/-! ## One grammar -/

/-- All readers accept what the writer writes, and nothing else. A text names a slot as a whole if
    it is the token of the slot. What is found in a text are the ranges that name a slot as a
    whole, each once and from the left, and none of them overlap; a text contains a token if there
    is such a range. Told by lengths of bytes and read in machine words, the slot of a whole text
    and the tokens in a text are the same. -/
theorem readers_agree (s : Slots) (hcount : s.count < 2 ^ 64) (text : String) :
    (∀ i, s.index? text = some i ↔ i < s.count ∧ text = String.ofList (s.token i)) ∧
    (∀ o, o ∈ s.find text ↔ ∃ content, slice? text.toList o.start o.stop = some content ∧
      s.index? (String.ofList content) = some o.index) ∧
    (s.find text).Pairwise (fun o p => o.stop ≤ p.start) ∧
    (∀ o ∈ s.find text, o.start < o.stop) ∧
    (s.contains text = true ↔ ∃ start stop content i,
      slice? text.toList start stop = some content ∧
        s.index? (String.ofList content) = some i) ∧
    s.wholeSlot? text = s.index? text ∧ s.scan text = s.find text := by
  refine ⟨fun i => ?_, fun o => mem_find_iff_slice?, pairwise_find text,
    fun o => start_lt_stop, ?_, wholeSlot?_eq hcount text, scan_eq_find hcount text⟩
  · rw [index?_eq_some_iff, ← String.toList_inj, String.toList_ofList]
  · rw [contains_iff]
    constructor
    · rintro ⟨o, ho⟩
      obtain ⟨content, hslice, hindex⟩ := mem_find_iff_slice?.1 ho
      exact ⟨o.start, o.stop, content, o.index, hslice, hindex⟩
    · rintro ⟨start, stop, content, i, hslice, hindex⟩
      exact ⟨⟨i, start, stop⟩, mem_find_iff_slice?.2 ⟨content, hslice, hindex⟩⟩

/-- As many slots as there can be. The last number is read; the next one is no slot's, a number
    with as many digits does not fit a word, and of one more a character of two bytes would have
    to be cut. -/
theorem readers_agree_at_limit :
    let s : Slots := ⟨2 ^ 64 - 1⟩
    let text := "emjay_substitution18446744073709551614é emjay_substitution18446744073709551615" ++
      "emjay_substitution99999999999999999999 emjay_substitution0000000000000000000é"
    s.count < 2 ^ 64 ∧ s.find text = [⟨18446744073709551614, 0, 38⟩] ∧
      s.scan text = [⟨18446744073709551614, 0, 38⟩] ∧
      (slice? text.toList 0 38).bind (fun cs => s.index? (String.ofList cs)) =
        some 18446744073709551614 ∧
      s.contains text = true := by
  intro s text
  have hcount : s.count < 2 ^ 64 := by decide
  have hfind : s.find text = [⟨18446744073709551614, 0, 38⟩] := by decide +kernel
  obtain ⟨-, hslices, -, -, hcontains, -, hscan⟩ := readers_agree s hcount text
  obtain ⟨content, hslice, hindex⟩ := (hslices ⟨18446744073709551614, 0, 38⟩).1 (by simp [hfind])
  refine ⟨hcount, hfind, hscan.trans hfind, ?_, hcontains.2 ⟨_, _, content, _, hslice, hindex⟩⟩
  rw [hslice, Option.bind_some]
  exact hindex

end Slots

end SlotMarkup
