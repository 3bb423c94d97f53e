import SlotMarkup.Proofs.ByteReaders
import SlotMarkup.Proofs.ScanRewording
import SlotMarkup.Proofs.TokenCover

/-!
# Lines by byte offsets

At the offset of a place, the bytes of a text are those of the characters behind the place
(`HasPlace.view_eq`), and the text can be cut there (`HasPlace.slice?_eq`). So looking at
single bytes shows what the characters are, as far as these are of ASCII, and reading a line by
offsets comes to the offsets of the places that reading it by characters comes to.

* `HasPlace.lineEnd_eq`, `HasPlace.nextLine_eq`: the end of a line and the next one;
* `HasPlace.nestedLines_eq`: nested lines.
-/

namespace SlotMarkup

/-! ## Outcomes -/

namespace Checked

variable {α β : Type}

/-- An outcome that a reader comes to. -/
def of (e : Except ScanError α) : Checked α := ExceptT.mk (some e)

/-- The outcome of reading something up to a place, told by its offset. -/
def ofPlaced (e : Except ScanError (α × Place)) : Checked (α × Nat) :=
  of (e.map fun r => (r.1, r.2.offset))

theorem of_map_ok (f : α → β) (a : α) : of ((Except.ok a).map f) = pure (f a) := rfl

theorem ofPlaced_ok (a : α) (q : Place) : ofPlaced (.ok (a, q)) = pure (a, q.offset) := rfl

/-- Where no check fails, mapping is as without checks. -/
theorem mapM_of_pure {f : α → Checked β} {g : α → β} {l : List α} (h : ∀ a ∈ l, f a = pure (g a)) :
    l.mapM f = pure (l.map g) := by
  induction l with
  | nil => rfl
  | cons a l ih =>
    rw [List.forall_mem_cons] at h
    rw [List.mapM_cons, h.1, ih h.2, pure_bind, pure_bind, List.map_cons]

end Checked

/-! ## Bytes of ASCII -/

/-- A text of ASCII is its own spelling. -/
theorem spell_of_ascii {cs : List Char} (h : ∀ c ∈ cs, IsAscii c) : spell cs = cs := by
  induction cs with
  | nil => rfl
  | cons c cs ih =>
    rw [List.forall_mem_cons] at h
    rw [spell_cons_ascii h.1, ih h.2]

theorem byteSize_of_isAscii {cs : List Char} (h : ∀ c ∈ cs, IsAscii c) :
    byteSize cs = cs.length := by rw [← length_spell, spell_of_ascii h]

/-- A character of ASCII ends a text if its byte ends the bytes of the text. -/
theorem getLast?_spell {c : Char} (hc : IsAscii c) (cs : List Char) :
    (spell cs).getLast? = some c ↔ cs.getLast? = some c := by
  rcases List.eq_nil_or_concat cs with rfl | ⟨ds, d, rfl⟩
  · simp
  · rw [List.concat_eq_append, spell_append, List.getLast?_concat, spell_cons, spell_nil,
      List.append_nil]
    by_cases hd : IsAscii d
    · rw [spellChar_of_ascii hd, List.getLast?_concat]
    · have hne : d ≠ c := fun h => hd (h ▸ hc)
      obtain ⟨e, es, he⟩ := exists_spellChar d
      rw [List.getLast?_append, he, List.getLast?_cons, Option.some_or, ← List.getLast?_cons, ← he]
      refine ⟨fun h => absurd hc ?_, fun h => absurd (Option.some.inj h) hne⟩
      exact not_ascii_of_mem_spellChar hd (List.mem_of_getLast? h)

/-- A byte is that of a character of ASCII only if it spells this character. -/
theorem eq_iff_of_mem_spellChar {c d x : Char} (hx : IsAscii x) (hd : d ∈ spellChar c) :
    d = x ↔ c = x := by
  by_cases hc : IsAscii c
  · rw [spellChar_of_ascii hc, List.mem_singleton] at hd
    rw [hd]
  · have hd := not_ascii_of_mem_spellChar hc hd
    exact ⟨fun h => absurd (h ▸ hx) hd, fun h => absurd (h ▸ hx) hc⟩

theorem isAscii_of_isIndent {c : Char} (h : isIndent c = true) : IsAscii c :=
  isAscii_of_isBlank (isBlank_of_isIndent h)

/-- A line is blank if its bytes are. -/
theorem isBlankText_spell (cs : List Char) : isBlankText (spell cs) = isBlankText cs :=
  all_spell asciiClass_isBlank cs

/-- Indentation is a byte for each character. -/
theorem takeWhile_isIndent_spell (cs : List Char) :
    (spell cs).takeWhile isIndent = cs.takeWhile isIndent := by
  rw [takeWhile_spell asciiClass_isIndent]
  exact spell_of_ascii fun c hc => isAscii_of_isIndent (mem_takeWhile hc)

/-- Indentation is as wide in bytes as in characters. -/
theorem indentWidth_spell (cs : List Char) : indentWidth (spell cs) = indentWidth cs := by
  rw [indentWidth, indentWidth, takeWhile_isIndent_spell]

theorem byteSize_eq_zero_iff {cs : List Char} : byteSize cs = 0 ↔ cs = [] := by
  rw [← length_spell, List.length_eq_zero_iff, spell_eq_nil_iff]

/-! ## Places of a text -/

/-- A place of the text. -/
def HasPlace (src : Source) (p : Place) : Prop := (Place.ofText src.text).Reaches p

/-- Over characters of ASCII an offset counts them. -/
theorem Place.offset_drop_of_ascii {p : Place} {n : Nat} (hn : n ≤ p.rest.length)
    (h : ∀ c ∈ p.rest.take n, IsAscii c) : (p.drop n).offset = p.offset + n := by
  rw [offset_drop, byteSize_of_isAscii h, List.length_take_of_le hn]

theorem Place.offset_drop_one {p : Place} {c : Char} {cs : List Char} (hp : p.rest = c :: cs)
    (hc : IsAscii c) : (p.drop 1).offset = p.offset + 1 :=
  offset_drop_of_ascii (by simp [hp]) (by simpa [hp] using hc)

theorem Place.offset_drop_two {p : Place} {c d : Char} {cs : List Char}
    (hp : p.rest = c :: d :: cs) (hc : IsAscii c) (hd : IsAscii d) :
    (p.drop 2).offset = p.offset + 2 :=
  offset_drop_of_ascii (by simp [hp]) (by simpa [hp] using ⟨hc, hd⟩)

/-- The bytes of a source are the spelling of its text. -/
theorem Source.bytes_eq (src : Source) : src.bytes = spell src.text.toList := by
  have hbytes : src.text.toUTF8 = src.text.toList.utf8Encode := String.utf8Encode_toList.symm
  rw [bytes, hbytes, spell, List.utf8Encode, List.data_toByteArray, List.toList_toArray,
    List.map_flatMap]
  rfl

/-- A reader goes on where it has come further. -/
theorem Source.onward_eq {α : Type} {src : Source} {pos next : Nat} (hpos : pos < src.size)
    (hnext : pos < next) (more : Checked α) : src.onward pos next (fun _ => more) = more :=
  dif_pos (Nat.sub_lt_sub_left hpos hnext)

namespace HasPlace

variable {src : Source} {p q : Place}

theorem ofText (src : Source) : HasPlace src (.ofText src.text) := .refl _

section HasPlace

variable (h : HasPlace src p)
include h

/-- A source has all places that are reached from one of it. -/
theorem reached (hq : p.Reaches q) : HasPlace src q := Place.Reaches.trans h hq

/-- A place parts the text into the bytes before its offset and the characters that follow it. -/
theorem split : ∃ pre, src.text.toList = pre ++ p.rest ∧ p.offset = byteSize pre :=
  ⟨_, (Place.Reaches.append_upTo h).symm, by
    rw [Place.Reaches.offset_eq h]
    exact Nat.zero_add _⟩

/-- At the offset of a place the bytes go on with the spelling of what follows it. -/
theorem bytes_split : ∃ ds, src.bytes = ds ++ spell p.rest ∧ p.offset = ds.length := by
  obtain ⟨pre, hpre, hoffset⟩ := h.split
  exact ⟨spell pre, by rw [src.bytes_eq, hpre, spell_append], by rw [hoffset, length_spell]⟩

/-- What is seen from the offset of a place is the spelling of what follows it. -/
theorem view_eq : src.view p.offset = spell p.rest := by
  obtain ⟨ds, hbytes, hoffset⟩ := h.bytes_split
  rw [Source.view, hbytes, hoffset, List.drop_left]

/-- A source is as long as what stands before a place and what follows it. -/
theorem size_eq : src.size = p.offset + byteSize p.rest := by
  obtain ⟨ds, hbytes, hoffset⟩ := h.bytes_split
  rw [Source.size, hbytes, hoffset, List.length_append, length_spell]

/-- There is something left to be read just if something follows the place. -/
theorem lt_size_iff : p.offset < src.size ↔ p.rest ≠ [] := by
  rw [h.size_eq, Nat.lt_add_right_iff_pos, Nat.pos_iff_ne_zero, Ne, byteSize_eq_zero_iff]

/-- A loop that moves on from place to place never fails to do so. -/
theorem onward_eq {α : Type} (hq : p.Reaches q) (hlt : q.rest.length < p.rest.length)
    (more : Checked α) : src.onward p.offset q.offset (fun _ => more) = more := by
  have hne : p.upTo q ≠ [] := fun hnil => by
    have hrest := hq.append_upTo
    rw [hnil, List.nil_append] at hrest
    rw [hrest] at hlt
    exact Nat.lt_irrefl _ hlt
  have hsize : 0 < byteSize (p.upTo q) := Nat.pos_iff_ne_zero.2 (mt byteSize_eq_zero_iff.1 hne)
  refine Source.onward_eq (h.lt_size_iff.2 fun hnil => ?_) ?_ more
  · rw [hnil] at hlt
    exact Nat.not_lt_zero _ hlt
  · rw [hq.offset_eq]
    exact Nat.lt_add_of_pos_right hsize

/-- The last place is at the end of the source. -/
theorem offset_final : p.final.offset = src.size := by
  rw [h.size_eq, Place.final, Place.offset_drop, List.take_length]

theorem size_of_end (hp : p.rest = []) : src.size = p.offset := by
  rw [h.size_eq, hp, byteSize_nil, Nat.add_zero]

/-- Reading on from the offset of a place never fails. -/
theorem bytesFrom_eq : src.bytesFrom p.offset = pure (spell p.rest) := by
  rw [Source.bytesFrom, if_pos (by rw [h.size_eq]; exact Nat.le_add_right _ _), h.view_eq]
  rfl

/-- A text can be cut at its places. -/
theorem slice?_eq (hq : p.Reaches q) :
    slice? src.text.toList p.offset q.offset = some (p.upTo q) := by
  obtain ⟨pre, hpre, hoffset⟩ := h.split
  rw [slice?_eq_some_iff]
  exact ⟨pre, q.rest, by rw [hpre, hq.append_upTo], hoffset,
    by rw [hq.offset_eq, byteSize_append, hoffset]⟩

/-- Between two places a source can be cut. -/
theorem slice_eq (hq : p.Reaches q) : src.slice p.offset q.offset = pure (p.upTo q) := by
  rw [Source.slice, h.slice?_eq hq]
  rfl

theorem slice_rest : src.slice p.offset src.size = pure p.rest := by
  have hrest : p.final.rest = [] := by rw [Place.final, Place.rest_drop, List.drop_length]
  have hreach : p.Reaches p.final := p.reaches_drop _
  rw [← h.offset_final, h.slice_eq hreach, ← List.append_nil (p.upTo _), ← hrest,
    hreach.append_upTo]

/-- The next byte is the first of those that spell what follows. -/
theorem peek_eq : src.peek p.offset = (spell p.rest).head? := by rw [Source.peek, h.view_eq]

/-- There is no next byte just at the end of the text. -/
theorem peek_eq_none_iff : src.peek p.offset = none ↔ p.rest = [] := by
  rw [h.peek_eq, List.head?_eq_none_iff, spell_eq_nil_iff]

/-- A byte of ASCII is the character there. -/
theorem peek_eq_some_iff {c : Char} (hc : IsAscii c) :
    src.peek p.offset = some c ↔ p.rest.head? = some c := by
  rw [h.peek_eq, head?_spell hc]

/-- A character of ASCII is seen as its byte. -/
theorem peek_head {c : Char} {cs : List Char} (hp : p.rest = c :: cs) (hc : IsAscii c) :
    src.peek p.offset = some c := (h.peek_eq_some_iff hc).2 (by rw [hp]; rfl)

/-- A byte of ASCII is seen only if its character is next. -/
theorem head_of_peek {c : Char} (hpeek : src.peek p.offset = some c) (hc : IsAscii c) :
    ∃ cs, p.rest = c :: cs := List.head?_eq_some_iff.1 ((h.peek_eq_some_iff hc).1 hpeek)

theorem peek_ne {c : Char} (hc : IsAscii c) (hne : ∀ cs, p.rest ≠ c :: cs) :
    src.peek p.offset ≠ some c := fun hpeek => by
  obtain ⟨cs, hcs⟩ := h.head_of_peek hpeek hc
  exact hne cs hcs

/-- Something is seen of every character. -/
theorem peek_cons {c : Char} {cs : List Char} (hp : p.rest = c :: cs) :
    ∃ d ∈ spellChar c, src.peek p.offset = some d := by
  obtain ⟨d, ds, hd⟩ := exists_spellChar c
  exact ⟨d, hd ▸ List.mem_cons_self, by rw [h.peek_eq, hp, spell_cons, hd]; rfl⟩

/-- A character of a class is next if a byte of it is. -/
theorem any_peek {f : Char → Bool} (hf : AsciiClass f) :
    (src.peek p.offset).any f = p.rest.head?.any f := by
  cases hp : p.rest with
  | nil => rw [h.peek_eq_none_iff.2 hp]; rfl
  | cons c cs =>
    obtain ⟨d, hd, hpeek⟩ := h.peek_cons hp
    rw [hpeek, List.head?_cons, Option.any_some, Option.any_some, hf.of_mem_spellChar hd]

/-- Only a character of a class can be next if only a byte of it can. -/
theorem all_peek {f : Char → Bool} (hf : AsciiClass f) :
    (src.peek p.offset).all f = p.rest.head?.all f := by
  cases hp : p.rest with
  | nil => rw [h.peek_eq_none_iff.2 hp]; rfl
  | cons c cs =>
    obtain ⟨d, hd, hpeek⟩ := h.peek_cons hp
    rw [hpeek, List.head?_cons, Option.all_some, Option.all_some, hf.of_mem_spellChar hd]

/-- What comes behind a character of ASCII is one byte later. -/
theorem drop_one {c : Char} {cs : List Char} (hp : p.rest = c :: cs) (hc : IsAscii c) :
    HasPlace src (p.drop 1) ∧ (p.drop 1).offset = p.offset + 1 ∧ (p.drop 1).rest = cs :=
  ⟨h.reached (p.reaches_drop 1), Place.offset_drop_one hp hc, by rw [Place.rest_drop, hp]; rfl⟩

/-- Bytes of a class are skipped up to the place that characters of it are. -/
theorem skip_eq {f : Char → Bool} (hf : AsciiClass f) :
    src.skip f p.offset = (p.skip f).offset := by
  rw [Source.skip, h.view_eq, takeWhile_spell hf, length_spell, (p.reaches_skip f).offset_eq,
    p.upTo_skip]

/-! ## Lines -/

/-- The last byte before an offset behind some characters is the one they end with. -/
theorem byteAt_eq (hq : p.Reaches q) {c : Char} (hc : (spell (p.upTo q)).getLast? = some c) :
    src.byteAt (q.offset - 1) = pure c := by
  obtain ⟨ds, hbytes, hoffset⟩ := h.bytes_split
  obtain ⟨es, hes⟩ := List.getLast?_eq_some_iff.1 hc
  have hat : q.offset - 1 = (ds ++ es).length := by
    rw [hq.offset_eq, ← length_spell, hes, hoffset, List.length_append, List.length_append,
      List.length_singleton]
    omega
  rw [Source.byteAt, hbytes, ← hq.append_upTo, spell_append, hes, hat, ← List.append_assoc,
    ← List.append_assoc, List.append_assoc _ [c], List.getElem?_append_right (Nat.le_refl _),
    Nat.sub_self]
  rfl

/-- The end of a line is found by its bytes. -/
theorem lineEnd_eq : src.lineEnd p.offset = pure p.lineEnd.offset := by
  have hnewline : p.Reaches (p.skip (· != '\n')) := p.reaches_skip _
  have hstop : p.offset + ((spell p.rest).takeWhile (· != '\n')).length =
      (p.skip (· != '\n')).offset := by
    rw [takeWhile_spell asciiClass_ne_newline, length_spell, hnewline.offset_eq, p.upTo_skip]
  have hline := p.line_append_lineBreak
  rw [Source.lineEnd, h.bytesFrom_eq, pure_bind, hstop]
  dsimp only
  -- The byte before the line feed is a carriage return just if the last character is one.
  by_cases hreturn : (p.rest.takeWhile (· != '\n')).getLast? = some '\r'
  · rw [if_pos hreturn] at hline
    have hbyte : src.byteAt ((p.skip (· != '\n')).offset - 1) = pure '\r' :=
      h.byteAt_eq hnewline (by rwa [p.upTo_skip, getLast?_spell (by decide)])
    have hoffset : (p.skip (· != '\n')).offset = p.lineEnd.offset + 1 := by
      rw [hnewline.offset_eq, p.upTo_skip, ← hline, byteSize_append, p.reaches_lineEnd.offset_eq,
        p.upTo_lineEnd]
      rfl
    have hlt := p.reaches_lineEnd.offset_eq
    rw [if_pos (by omega), hbyte, pure_bind, if_pos rfl, hoffset, Nat.add_sub_cancel]
  · rw [if_neg hreturn, List.append_nil] at hline
    have hoffset : (p.skip (· != '\n')).offset = p.lineEnd.offset := by
      rw [hnewline.offset_eq, p.upTo_skip, ← hline, p.reaches_lineEnd.offset_eq, p.upTo_lineEnd]
    rw [hoffset]
    split
    · rename_i hlt
      rw [p.reaches_lineEnd.offset_eq, p.upTo_lineEnd, Nat.lt_add_right_iff_pos,
        ← length_spell] at hlt
      have hc := List.getLast?_eq_some_getLast (List.ne_nil_of_length_pos hlt)
      generalize (spell p.line).getLast _ = c at hc
      have hne : c ≠ '\r' := fun hr => hreturn (by
        rwa [← hline, ← getLast?_spell (by decide), ← hr])
      rw [h.byteAt_eq p.reaches_lineEnd (by rwa [p.upTo_lineEnd]), pure_bind, if_neg hne]
    · rfl

/-- So is the start of the next line. -/
theorem nextLine_eq : src.nextLine p.offset = pure p.nextLine.offset := by
  have hsplit := List.takeWhile_append_dropWhile (p := (· != '\n')) (l := p.rest)
  have hsize := h.size_eq
  rw [← hsplit, byteSize_append] at hsize
  have hreach := p.reaches_nextLine
  have hoffset : p.nextLine.offset =
      p.offset + (byteSize (p.rest.takeWhile (· != '\n')) +
        byteSize ((p.rest.dropWhile (· != '\n')).take 1)) := by
    rw [hreach.offset_eq, ← byteSize_append, Place.upTo_eq_of_append]
    rw [p.rest_nextLine, List.append_assoc, List.take_append_drop, hsplit]
  rw [Source.nextLine, h.bytesFrom_eq, pure_bind, takeWhile_spell asciiClass_ne_newline,
    length_spell]
  refine congrArg pure ?_
  rw [hoffset]
  cases hd : p.rest.dropWhile (· != '\n') with
  | nil =>
    rw [hd] at hsize
    rw [List.take_nil, byteSize_nil] at *
    omega
  | cons c cs =>
    obtain rfl := eq_of_dropWhile_ne hd
    have hone : Char.utf8Size '\n' = 1 := rfl
    rw [hd, byteSize_cons] at hsize
    rw [List.take_succ_cons, List.take_zero, byteSize_cons, byteSize_nil]
    omega

/-- The text of the line at a place. -/
theorem slice_line : src.slice p.offset p.lineEnd.offset = pure p.line := by
  rw [h.slice_eq p.reaches_lineEnd, p.upTo_lineEnd]

/-- By bytes a line ends where it does by characters. -/
theorem atLineEnd_eq : src.atLineEnd p.offset = atLineEnd p := by
  have hclass : AsciiClass fun c => c == '\n' || c == '\r' := asciiClass_of_ascii fun c hc => by
    rw [Bool.or_eq_true, beq_iff_eq, beq_iff_eq] at hc
    rcases hc with rfl | rfl <;> decide
  rw [Source.atLineEnd, h.all_peek hclass, atLineEnd]
  cases p.rest <;> rfl

/-- The rest of a line is cut out and blank if it is by characters. -/
theorem restIsBlank_eq : src.restIsBlank p.offset = pure (restIsBlank p) := by
  rw [Source.restIsBlank, h.lineEnd_eq, pure_bind, h.slice_line, pure_bind, isBlankText_spell,
    restIsBlank]

/-- There is a character to complain about. -/
theorem unexpected_eq {α : Type} (hp : p.rest ≠ []) :
    src.unexpected (α := α) p.offset = .of (.error (.unexpected p)) := by
  obtain ⟨c, cs, hcs⟩ := List.exists_cons_of_ne_nil hp
  have hoffset : (p.drop 1).offset = p.offset + c.utf8Size := by
    rw [Place.offset_drop, hcs, List.take_succ_cons, List.take_zero]
    rfl
  rw [Source.unexpected, h.slice_rest, pure_bind, hcs, List.headD_cons]
  dsimp only
  rw [← hoffset, ScanError.unexpected, hcs]
  rfl

end HasPlace

/-! ## Nested lines -/

/-- The line at a place. -/
def rawLine (p : Place) : Source.RawLine :=
  ⟨p.offset, p.lineEnd.offset, if isBlankText p.line then none else some p.indent⟩

/-- The text and the span of a stretch. -/
def nestedLine (s : Stretch) : Source.NestedLine := ⟨s.chars, s.span⟩

/-- The loop over nested lines takes a line, and goes on, just if it is nested. -/
theorem nestedRun_line {base : Nat} (h : HasPlace src p) (hp : p.rest ≠ []) :
    src.nestedRun base p.offset =
      if isBlankText p.line || base < p.indent then do
        let (lines, next) ← src.nestedRun base p.nextLine.offset
        pure (rawLine p :: lines, next)
      else pure ([], p.offset) := by
  have hall : (rawLine p).width.all (base < ·) = (isBlankText p.line || base < p.indent) := by
    rw [rawLine]
    split <;> simp [*]
  rw [← hall, rawLine, Source.nestedRun, if_pos (h.lt_size_iff.2 hp), h.lineEnd_eq, pure_bind,
    h.slice_line, pure_bind]
  dsimp only
  rw [isBlankText_spell, indentWidth_spell, p.indentWidth_line, h.nextLine_eq, pure_bind,
    h.onward_eq p.reaches_nextLine (Place.nextLine_lt hp)]

/-- The loop over nested lines takes those that the reader by characters takes. -/
theorem nestedRun_eq (base : Nat) (h : HasPlace src p) : src.nestedRun base p.offset =
    pure ((nestedRun base p).1.map rawLine, (nestedRun base p).2.offset) := by
  fun_induction nestedRun base p with
  | case1 p hp =>
    rw [Source.nestedRun, if_neg fun hlt => h.lt_size_iff.1 hlt hp]
    rfl
  | case2 p hp hnested lines next hrun ih =>
    rw [h.nestedRun_line hp, if_pos hnested, ih (h.reached p.reaches_nextLine), hrun]
    rfl
  | case3 p hp hnested =>
    rw [h.nestedRun_line hp, if_neg hnested]
    rfl

/-- A line is cut in its indentation. -/
theorem stripLine_eq {width : Nat} (h : HasPlace src p)
    (hwidth : isBlankText p.line = false → width ≤ p.indent) :
    src.stripLine width (rawLine p) = pure (nestedLine (stripLine width p)) := by
  by_cases hb : isBlankText p.line = true
  · have hnone : (rawLine p).width.isNone = true := by rw [rawLine, if_pos hb]; rfl
    rw [Source.stripLine, if_pos hnone, stripLine, if_pos hb, nestedLine, Stretch.chars, Place.upTo,
      Nat.sub_self, List.take_zero]
    rfl
  · -- What is cut off is indentation, which is one byte for each character.
    have hle := hwidth (by simpa using hb)
    have hlen : width ≤ p.rest.length := Nat.le_trans hle (List.takeWhile_prefix _).length_le
    have hoffset : p.offset + width = (p.drop width).offset :=
      (Place.offset_drop_of_ascii hlen fun c hc =>
        isAscii_of_isIndent (isIndent_of_mem_take hle c hc)).symm
    have hwithin := (stripLine_within hwidth).2.1
    rw [stripLine, if_neg hb] at hwithin
    have hsome : ¬(rawLine p).width.isNone = true := by rw [rawLine, if_neg hb]; simp
    rw [Source.stripLine, if_neg hsome, stripLine, if_neg hb, rawLine]
    dsimp only
    rw [hoffset, (h.reached (p.reaches_drop width)).slice_eq hwithin, pure_bind]
    rfl

/-- The widths noted for the lines are those of the lines that are not blank. -/
theorem filterMap_width (lines : List Place) : (lines.map rawLine).filterMap (·.width) =
    (lines.filter fun q => !isBlankText q.line).map Place.indent := by
  induction lines with
  | nil => rfl
  | cons q lines ih =>
    rw [List.map_cons, List.filterMap_cons, ih, rawLine, List.filter_cons]
    by_cases hb : isBlankText q.line = true <;> simp [hb]

/-- Nested lines are found by their bytes. -/
theorem nestedLines_eq (base : Nat) (h : HasPlace src p) : src.nestedLines base p.offset =
    pure ((nestedLines base p).1.map nestedLine, (nestedLines base p).2.offset) := by
  -- The lines that are kept are the same ones, and the narrowest of them that is not blank gives
  -- the width to cut off.
  have hkept := map_dropTrailing (f := fun q : Place => isBlankText q.line)
    (g := fun l : Source.RawLine => l.width.isNone) (e := rawLine) (l := (nestedRun base p).1)
    fun q _ => by rw [rawLine]; split <;> simp [*]
  have hmem (q : Place) (hq : q ∈ dropTrailing (fun q => isBlankText q.line) (nestedRun base p).1) :
      HasPlace src q := by
    have hsplit := dropTrailing_append_takeWhile (fun q : Place => isBlankText q.line)
      (nestedRun base p).1
    exact h.reached ((nestedRun_order base p).1 q (hsplit ▸ List.mem_append_left _ hq))
  rw [Source.nestedLines, h.nestedRun_eq, pure_bind]
  dsimp only
  rw [← hkept, nestedLines]
  dsimp only
  generalize dropTrailing (fun q : Place => isBlankText q.line) (nestedRun base p).1 = kept at *
  have hle (q : Place) (hq : q ∈ kept) (hb : isBlankText q.line = false) :
      (((kept.filter fun q => !isBlankText q.line).map Place.indent).min?).getD 0 ≤ q.indent :=
    List.min?_getD_le_of_mem (List.mem_map_of_mem (List.mem_filter.2 ⟨hq, by simp [hb]⟩))
  rw [filterMap_width]
  generalize (((kept.filter fun q => !isBlankText q.line).map Place.indent).min?).getD 0 = width
    at hle ⊢
  rw [List.mapM_map, Checked.mapM_of_pure (f := src.stripLine width ∘ rawLine)
    (g := nestedLine ∘ stripLine width) fun q hq => (hmem q hq).stripLine_eq (hle q hq), pure_bind,
    List.map_map]

end HasPlace

end SlotMarkup
