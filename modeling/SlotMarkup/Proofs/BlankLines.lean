import SlotMarkup.Proofs.Composition
import SlotMarkup.Proofs.DedentedLines
import SlotMarkup.Proofs.Interpolation
import SlotMarkup.Proofs.ShorterTexts

/-!
# Blank lines

One more line of spaces alone changes nothing in a template, where no attribute list, no comment
and no text block goes on. Dedenting does not count it, and drops it before the first and after the
last line with more than spaces. Between them it is skipped if its spaces are all ASCII, but else
it is read, and refused.

Two texts that start with the same lines and go on with the same first line are read alike
(`openingLinesFrom_refill`), as long as no line of theirs reaches into what they go on with. Only a
list of attributes that is open (`lineContent_of_extend`), or nested lines (`ReadsOn`), do that.

* `dedentChars_append`: the two parts of a dedented text;
* `Template.compile_blank_line`: what one more line of spaces alone does.
-/

namespace SlotMarkup

/-! ## The first line -/

section FirstLine

variable {p q : Place} {b : List Char}

/-- Before the first line are blanks. -/
theorem Place.exists_append_firstLine (p : Place) :
    ∃ cs, isBlankText cs = true ∧ cs ++ p.firstLine.rest = p.rest := by
  fun_induction firstLine p with
  | case1 p hp => exact ⟨[], rfl, rfl⟩
  | case2 p hp hb ih =>
    obtain ⟨cs, hcs, hrest⟩ := ih
    have hbreak : isBlankText (lineBreak p) = true :=
      List.all_eq_true.2 fun c hc => isBlank_of_mem_lineBreak hc
    refine ⟨p.line ++ (lineBreak p ++ cs), ?_, ?_⟩
    · rw [isBlankText_append, isBlankText_append, hb, hbreak, hcs]
      rfl
    · rw [List.append_assoc, List.append_assoc, hrest, p.line_append_nextLine]
  | case3 p hp hb => exact ⟨[], rfl, rfl⟩

theorem Place.length_firstLine_le (p : Place) : p.firstLine.rest.length ≤ p.rest.length := by
  obtain ⟨cs, -, hrest⟩ := p.exists_append_firstLine
  rw [← hrest, List.length_append]
  exact Nat.le_add_left _ _

/-- What closes an attribute list takes some of the first line, as it is no blank. -/
theorem Closes.length_lt (h : Closes b q) :
    q.rest.length < (Place.mk 0 b).firstLine.rest.length := by
  obtain ⟨cs, ⟨as, has⟩, hq⟩ := h
  obtain ⟨ds, hds, hrest⟩ := (Place.mk 0 b).exists_append_firstLine
  refine Nat.lt_of_le_of_lt hq.length_le ?_
  have hsplit : as ++ ')' :: cs = ds ++ (Place.mk 0 b).firstLine.rest := has.trans hrest.symm
  rcases List.append_eq_append_iff.1 hsplit with ⟨es, rfl, hes⟩ | ⟨es, -, hfirst⟩
  · cases es with
    | nil =>
      rw [List.nil_append] at hes
      rw [← hes]
      exact Nat.lt_succ_self _
    | cons e es =>
      obtain ⟨rfl, -⟩ := List.cons.inj hes
      have hblank := List.all_eq_true.1 hds ')' (List.mem_append_right _ List.mem_cons_self)
      exact absurd hblank (by decide)
  · rw [hfirst, List.length_append, List.length_cons]
    omega

/-- Whether a line is blank does not depend on how it ends. -/
theorem Place.isBlankText_line (p : Place) :
    isBlankText p.line = isBlankText (p.rest.takeWhile (· != '\n')) := by
  rw [Place.line]
  generalize p.rest.takeWhile (· != '\n') = cs
  split
  · rename_i hreturn
    obtain ⟨ds, rfl⟩ := List.getLast?_eq_some_iff.1 hreturn
    have hblank : isBlankText ['\r'] = true := rfl
    rw [List.dropLast_concat, isBlankText_append, hblank, Bool.and_true]
  · rfl

variable {w : List Char}

theorem endsRow_feed (b : List Char) : EndsRow ('\n' :: b) := by
  rintro c ⟨rfl⟩
  rfl

theorem isBlankText_line_append (h : p.rest = w ++ '\n' :: b) (hfeed : '\n' ∉ w) :
    isBlankText p.line = isBlankText w := by
  rw [p.isBlankText_line, h, takeWhile_row hfeed (endsRow_feed b)]

/-- A blank line is no first line. -/
theorem firstLine_blank_line (hw : isBlankText w = true) (hfeed : '\n' ∉ w) :
    (Place.mk 0 (w ++ '\n' :: b)).firstLine.rest = (Place.mk 0 b).firstLine.rest := by
  rw [Place.firstLine_of_blank (by simp) ((isBlankText_line_append rfl hfeed).trans hw)]
  exact Place.firstLine_congr (Place.rest_nextLine_of_append rfl hfeed (endsRow_feed b))

end FirstLine

/-! ## Opening lines -/

section Opening

variable {b b' : List Char} {p q start next : Place} {content : List Token}

theorem Place.length_le_nextLine_extend (p : Place) (b : List Char) :
    b.length ≤ (p.extend ('\n' :: b)).nextLine.rest.length := by
  have hle : (p.rest.takeWhile (· != '\n')).length ≤ p.rest.length :=
    (List.takeWhile_prefix _).length_le
  rw [nextLine, rest_drop, rest_extend, takeWhile_extend (by decide), List.length_drop,
    List.length_append, List.length_cons]
  omega

/-- A line that is not blank does not end after its indentation. -/
theorem Place.rest_drop_indent_ne_nil (hb : isBlankText p.line = false) :
    (p.drop p.indent).rest ≠ [] := by
  rw [show p.drop p.indent = p.skip isIndent from rfl, Place.rest_skip]
  intro hnil
  have hall := List.dropWhile_eq_nil_iff.1 hnil
  have hblank : isBlankText p.line = true := List.all_eq_true.2 fun c hc => by
    refine isBlank_of_isIndent (hall c ?_)
    rw [← p.line_append_nextLine]
    exact List.mem_append_left _ hc
  simp [hb] at hblank

/-- What a line can hold does not start with a space. -/
theorem lineContent_start {indent : Nat} {ts : List Token}
    (h : lineContent indent p = .ok (ts, q)) : ∃ c cs, p.rest = c :: cs ∧ isSpace c = false := by
  rw [lineContent] at h
  split at h
  case h_8 =>
    obtain ⟨c, cs, hcs, hopens⟩ := tagLine_start h
    refine ⟨c, cs, hcs, ?_⟩
    rcases hopens with hword | rfl | rfl
    · exact Bool.eq_false_iff.2 fun hspace => by simp [isWord_of_isSpace hspace] at hword
    · rfl
    · rfl
  all_goals
    rename_i hds
    exact ⟨_, _, hds, rfl⟩

/-- A line of spaces that is not blank holds nothing that can be read. -/
theorem lineContent_ne_ok_of_spaces {w : List Char} (hrest : p.rest = w ++ '\n' :: b)
    (hw : isSpaceText w = true) (hb : isBlankText w = false) (indent : Nat)
    (r : List Token × Place) : lineContent indent (p.drop p.indent) ≠ .ok r := by
  intro h
  obtain ⟨c, cs, hcs, hc⟩ := lineContent_start h
  cases hds : w.dropWhile isIndent with
  | nil =>
    have hall := List.dropWhile_eq_nil_iff.1 hds
    have hblank : isBlankText w = true :=
      List.all_eq_true.2 fun c hc => isBlank_of_isIndent (hall c hc)
    simp [hb] at hblank
  | cons d ds =>
    rw [show p.drop p.indent = p.skip isIndent from rfl, Place.rest_skip, hrest,
      List.dropWhile_append, hds] at hcs
    obtain rfl := (List.cons.inj hcs).1
    have hd := List.all_eq_true.1 hw d ((List.dropWhile_suffix isIndent).subset (by simp [hds]))
    simp [hc] at hd

/-- The first opening line, where a line is not blank. -/
theorem exists_of_openingLinesFrom {ls : List OpeningLine} (hp : p.rest ≠ [])
    (hb : isBlankText p.line = false) (h : openingLinesFrom p = .ok ls) :
    ∃ content next more, lineContent p.indent (p.drop p.indent) = .ok (content, next) ∧
      openingLinesFrom next = .ok more ∧ ls = ⟨p, content, next⟩ :: more := by
  rw [openingLinesFrom, dif_neg hp, if_neg (by simp [hb])] at h
  split at h
  · simp at h
  · rename_i content next hc
    obtain ⟨more, hmore, rfl⟩ := map_eq_ok_iff.1 h
    exact ⟨content, next, more, hc, hmore, rfl⟩

/-- A line of the first text that takes some of the first line of the second one swallows it. -/
theorem swallows_first {l : OpeningLine} (hstart : l.start = p.extend ('\n' :: b))
    (hc : lineContent l.indent (l.start.drop l.indent) = .ok (l.content, l.next))
    (hlt : l.next.rest.length < (Place.mk 0 b).firstLine.rest.length) :
    l.Swallows (Place.mk 0 b).firstLine := by
  have hfirst : (Place.mk 0 b).firstLine.rest.length ≤ b.length :=
    (Place.mk 0 b).length_firstLine_le
  refine ⟨?_, ?_, hlt⟩
  · obtain ⟨r, -, hnext, hgoes | hline⟩ := lineContent_ends hc
    · exact hgoes
    · -- Else it ends before the second text.
      have honline : l.start.OnLine (l.start.drop l.indent) := l.start.onLine_skip rfl
      have hle := p.length_le_nextLine_extend b
      rw [hnext, hline.2, honline.2, hstart] at hlt
      exact absurd (Nat.le_trans hfirst hle) (Nat.not_le_of_lt hlt)
  · rw [hstart, Place.rest_extend, List.length_append, List.length_cons]
    omega

/-- Two texts go on with others that have the same first line. If no line of the one text
    swallows it, the opening lines of both are alike. -/
theorem openingLinesFrom_refill {pt pu : Place} {ls : List OpeningLine}
    (hfirst : (Place.mk 0 b').firstLine.rest = (Place.mk 0 b).firstLine.rest)
    (ht : Resumes b p pt) (hu : Resumes b' p pu) (hls : openingLinesFrom pt = .ok ls)
    (hout : ∀ l ∈ ls, ¬l.Swallows (Place.mk 0 b).firstLine) : ∃ ls',
      openingLinesFrom pu = .ok ls' ∧ ls'.map OpeningLine.traits = ls.map OpeningLine.traits := by
  fun_induction openingLinesFrom p generalizing pt pu ls with
  | case1 p hp =>
    rw [← openingLinesFrom_firstLine] at hls ⊢
    exact openingLinesFrom_of_rest ((hu.of_nil hp).trans (hfirst.trans (ht.of_nil hp).symm)) hls
  | case2 p hp hblank ih =>
    obtain rfl := ht.of_ne_nil hp
    obtain rfl := hu.of_ne_nil hp
    rw [openingLinesFrom, dif_neg Place.rest_extend_ne_nil, Place.line_extend,
      if_pos hblank] at hls ⊢
    exact ih Place.nextLine_extend Place.nextLine_extend hls hout
  | case3 p hp hblank e he =>
    -- What the first text leaves open, the other one closes only in the first line.
    obtain rfl := ht.of_ne_nil hp
    obtain ⟨us, next, more, hus, -, rfl⟩ := exists_of_openingLinesFrom Place.rest_extend_ne_nil
      (by simpa using hblank) hls
    have hopen := hus
    rw [Place.indent_extend, Place.drop_indent_extend] at hopen
    have hcloses := lineContent_of_extend (Place.rest_drop_indent_ne_nil (by simpa using hblank))
      he hopen
    exact absurd (swallows_first (l := ⟨_, us, next⟩) rfl hus hcloses.length_lt)
      (hout _ List.mem_cons_self)
  | case4 p hp hblank content next hc ih =>
    obtain rfl := ht.of_ne_nil hp
    obtain rfl := hu.of_ne_nil hp
    obtain ⟨us, nextT, more, hus, hmore, rfl⟩ := exists_of_openingLinesFrom
      Place.rest_extend_ne_nil (by simpa using hblank) hls
    obtain ⟨hl, hout⟩ := List.forall_mem_cons.1 hout
    have hread := hus
    rw [Place.indent_extend, Place.drop_indent_extend] at hread
    obtain ⟨nests, hreads⟩ := lineContent_resumes hc
    have hnest : nests → (Place.mk 0 b).firstLine.indent ≤ p.indent := by
      intro hn
      by_contra hlt
      obtain ⟨us', next', hread', hlt'⟩ := hreads.takesFirst hn b (Nat.lt_of_not_le hlt)
      obtain ⟨rfl, rfl⟩ := Prod.mk.inj (Except.ok.inj (hread.symm.trans hread'))
      exact hl (swallows_first (l := ⟨_, us, nextT⟩) rfl hus hlt')
    have hindent := Place.indent_of_rest hfirst
    obtain ⟨us', next', hread', husT, hnextT⟩ := hreads.rejoins b hnest
    obtain ⟨rfl, rfl⟩ := Prod.mk.inj (Except.ok.inj (hread.symm.trans hread'))
    obtain ⟨vs, nextU, hreadU, hvs, hnextU⟩ := hreads.rejoins b' fun hn => hindent ▸ hnest hn
    obtain ⟨ls', hls', htraits⟩ := ih hnextT hnextU hmore hout
    rw [← Place.drop_indent_extend, ← Place.indent_extend (b := b')] at hreadU
    rw [openingLinesFrom_cons Place.rest_extend_ne_nil (by simpa using hblank) hreadU, hls']
    have hhead : (OpeningLine.mk (p.extend ('\n' :: b')) vs nextU).traits =
        (OpeningLine.mk (p.extend ('\n' :: b)) us nextT).traits := calc
      _ = (OpeningLine.mk p content next).traits := (traits_extend hvs).symm
      _ = _ := traits_extend husT
    exact ⟨_, rfl, by rw [List.map_cons, List.map_cons, htraits, hhead]⟩

end Opening

/-! ## Trees -/

theorem Block.heads_name_ne {text : String} {block : Block} (h : Block.parse text = .ok block) :
    ∀ head ∈ blockHeads block, head.name ≠ fragmentTag := by
  rw [Block.parse] at h
  split at h
  · simp at h
  · rename_i tokens hscan
    exact blockHeads_name_ne hscan h

/-- What a text is parsed to depends on the traits of its opening lines. -/
theorem Block.parse_of_traits {text text' : String} {ls ls' : List OpeningLine} {block : Block}
    (h : Block.parse text = .ok block) (hls : openingLines text = .ok ls)
    (hls' : openingLines text' = .ok ls')
    (htraits : ls'.map OpeningLine.traits = ls.map OpeningLine.traits) :
    ∃ block', Block.parse text' = .ok block' ∧ block'.toValue = block.toValue := by
  obtain ⟨ls₀, f, hls₀, haccepted, rfl, hlevel, hshows⟩ := accepted_of_parse h
  obtain rfl := Except.ok.inj (hls.symm.trans hls₀)
  obtain ⟨block', g, h', rfl, hlevel', hshows'⟩ :=
    shows_of_accepted hls' (haccepted.congr htraits)
  have hshape : g.toList.map OpeningLine.shape = (f.map OpeningLine.shape).toList := by
    rw [Forest.toList_map]
    have hshapes := congrArg (List.map fun t => t.2.2) htraits
    rwa [List.map_map, List.map_map] at hshapes
  obtain ⟨g', hg', hmap⟩ := Forest.exists_map_eq hshape
  obtain rfl := Forest.eq_of_toList (hlevel.of_shape hmap) hlevel' hg'
  have houtline : outlineBlock id block' = outlineBlock id block := by
    rw [outlineBlock, outlineBlock]
    exact congrArg (BlockOf.mk · .nowhere) (hshows.alike hshows' hmap)
  have hsame := treeMap_id.toValue block (Block.heads_name_ne h)
  rw [← houtline] at hsame
  exact ⟨block', h', (treeMap_id.toValue block' (Block.heads_name_ne h')).trans hsame.symm⟩

/-! ## Dedented texts -/

section Dedent

/-- A text without the first `width` characters of the indentation of its lines. -/
def outdent (width : Nat) (cs : List Char) : List Char :=
  joinLines ((splitLines cs).map (outdentLine width))

variable {as bs w : List Char}

theorem outdent_append (width : Nat) (as bs : List Char) :
    outdent width (as ++ '\n' :: bs) = outdent width as ++ '\n' :: outdent width bs := by
  rw [outdent, splitLines_append, List.map_append, joinLines_append]
  · rfl
  · simp [splitLines_ne_nil]
  · simp [splitLines_ne_nil]

theorem isSpaceText_outdent (width : Nat) (cs : List Char) :
    isSpaceText (outdent width cs) = isSpaceText cs := by
  conv => rhs; rw [← joinLines_splitLines cs]
  rw [outdent, isSpaceText_joinLines, isSpaceText_joinLines, List.all_map]
  exact congrArg (List.all _) (funext (isSpaceText_outdentLine width))

/-- Lines of spaces alone do not count for the common indentation. -/
theorem commonIndent_spaces (ls ns : List (List Char)) (hw : isSpaceText w = true) :
    commonIndent (ls ++ splitLines w ++ ns) = commonIndent (ls ++ ns) := by
  rw [← joinLines_splitLines w, isSpaceText_joinLines] at hw
  have hnone : (splitLines w).filter (fun l => !l.all isSpace) = [] := by
    refine List.filter_eq_nil_iff.2 fun l hl => ?_
    have hl := List.all_eq_true.1 hw l hl
    rw [isSpaceText] at hl
    simp [hl]
  rw [commonIndent, commonIndent, List.filter_append, List.filter_append, hnone, List.append_nil,
    List.filter_append]

/-- Two texts are dedented by the indentation that the lines of both share. -/
theorem dedentChars_both (as bs : List Char) :
    let width := commonIndent (splitLines as ++ splitLines bs)
    dedentChars (as ++ '\n' :: bs) = trim (outdent width as ++ '\n' :: outdent width bs) := by
  intro width
  rw [← outdent_append]
  exact congrArg (fun ls => trim (outdent (commonIndent ls) (as ++ '\n' :: bs)))
    (splitLines_append as bs)

/-- Lines of spaces alone before a text are dropped. -/
theorem dedentChars_append_left (has : isSpaceText as = true) :
    dedentChars (as ++ '\n' :: bs) = dedentChars bs := by
  have hcommon := commonIndent_spaces [] (splitLines bs) has
  rw [List.nil_append, List.nil_append] at hcommon
  rw [dedentChars_both, hcommon, List.append_cons, trim, trimLeft_append_spaces]
  · rfl
  · rw [isSpaceText_append, isSpaceText_outdent, has]
    rfl

/-- Lines of spaces alone after a text are dropped. -/
theorem dedentChars_append_right (hbs : isSpaceText bs = true) :
    dedentChars (as ++ '\n' :: bs) = dedentChars as := by
  cases has : isSpaceText as with
  | true => rw [dedentChars_append_left has, dedentChars_of_spaces has, dedentChars_of_spaces hbs]
  | false =>
    have hcommon := commonIndent_spaces (splitLines as) [] hbs
    rw [List.append_nil, List.append_nil] at hcommon
    rw [dedentChars_both, hcommon, trim, trimLeft_append (by rwa [isSpaceText_outdent])]
    refine dropTrailing_append_all _ (List.forall_mem_cons.2 ⟨rfl, List.all_eq_true.1 ?_⟩)
    rw [← isSpaceText, isSpaceText_outdent, hbs]

/-- Between two lines with more than spaces, a text loses indentation alone. -/
theorem dedentChars_append (has : isSpaceText as = false) (hbs : isSpaceText bs = false) :
    let width := commonIndent (splitLines as ++ splitLines bs)
    dedentChars (as ++ '\n' :: bs) =
      trimLeft (outdent width as) ++ '\n' :: dropTrailing isSpace (outdent width bs) := by
  intro width
  rw [dedentChars_both, trim, trimLeft_append, List.append_cons, dropTrailing_append_right,
    ← List.append_cons]
  · rwa [isSpaceText_outdent]
  · rwa [isSpaceText_outdent]

end Dedent

/-! ## Lines between two texts -/

/-- The indentation that the lines of both texts share. -/
def sharedIndent (a b : String) : Nat := commonIndent (splitLines a.toList ++ splitLines b.toList)

/-- What is left of `a` in the dedented text of `a`, a line feed and `b`. -/
def front (a b : String) : List Char := trimLeft (outdent (sharedIndent a b) a.toList)

/-- What is left of `b` there. -/
def remainder (a b : String) : List Char :=
  dropTrailing isSpace (outdent (sharedIndent a b) b.toList)

/-- Where the remainder starts in the dedented text. -/
def seam (a b : String) : Place :=
  let p := Place.ofText (dedent (a ++ "\n" ++ b))
  p.drop (p.rest.length - (remainder a b).length)

/-- Between `a` and `b` no attribute list, no comment and no text block goes on: the first line of
    the remainder is swallowed by no other one. -/
def Outside (a b : String) : Prop :=
  ∀ lines, openingLines (dedent (a ++ "\n" ++ b)) = .ok lines →
    ∀ l ∈ lines, ¬l.Swallows (seam a b).firstLine

instance (t : Token) : Decidable (GoesOn t) := inferInstanceAs (Decidable (_ ∨ _ ∨ _))

instance (l : OpeningLine) (q : Place) : Decidable (l.Swallows q) :=
  inferInstanceAs (Decidable (_ ∧ _ ∧ _))

instance (a b : String) : Decidable (Outside a b) :=
  match h : openingLines (dedent (a ++ "\n" ++ b)) with
  | .error _ => isTrue fun _ hlines => by simp [h] at hlines
  | .ok lines =>
    decidable_of_iff (∀ l ∈ lines, ¬l.Swallows (seam a b).firstLine) (by simp [Outside, h])

section Between

variable {a w b : String}

theorem toList_between (a b : String) : (a ++ "\n" ++ b).toList = a.toList ++ '\n' :: b.toList := by
  rw [String.toList_append, String.toList_append, List.append_assoc]
  rfl

theorem isSpaceText_between (a b : String) :
    isSpaceText (a ++ "\n" ++ b).toList = (isSpaceText a.toList && isSpaceText b.toList) := by
  rw [toList_between, isSpaceText_append]
  rfl

theorem dedent_between (ha : isSpaceText a.toList = false) (hb : isSpaceText b.toList = false) :
    (dedent (a ++ "\n" ++ b)).toList = front a b ++ '\n' :: remainder a b := by
  rw [dedent, String.toList_ofList, toList_between, dedentChars_append ha hb]
  rfl

theorem rest_seam (ha : isSpaceText a.toList = false) (hb : isSpaceText b.toList = false) :
    (seam a b).rest = remainder a b := by
  rw [seam, Place.rest_drop, Place.ofText, dedent_between ha hb, List.append_cons,
    List.length_append, Nat.add_sub_cancel_right, List.drop_left]

theorem isSpaceText_remainder (a b : String) :
    isSpaceText (remainder a b) = isSpaceText b.toList := by
  rw [remainder, isSpaceText_dropTrailing, isSpaceText_outdent]

/-- The remainder starts with a line. -/
theorem seam_mem_lineStarts (ha : isSpaceText a.toList = false)
    (hb : isSpaceText b.toList = false) :
    seam a b ∈ lineStarts (Place.ofText (dedent (a ++ "\n" ++ b))) := by
  have hrest := rest_seam ha hb
  have hne : (seam a b).rest ≠ [] := by
    intro hnil
    rw [← isSpaceText_remainder a, ← hrest, hnil] at hb
    simp [isSpaceText] at hb
  have hseam : seam a b =
      ((Place.ofText (dedent (a ++ "\n" ++ b))).drop (front a b).length).nextLine := by
    rw [Place.nextLine, Place.rest_drop, seam, Place.ofText, dedent_between ha hb, List.drop_left,
      List.takeWhile_cons_of_neg (by decide), Place.drop_drop, List.append_cons,
      List.length_append, Nat.add_sub_cancel_right, List.length_append]
    rfl
  have hlines : lineStarts (seam a b) <:+ lineStarts (Place.ofText (dedent (a ++ "\n" ++ b))) := by
    rw [hseam]
    exact (lineStarts_suffix (Place.reaches_drop _ _)).trans (lineStarts_nextLine _)
  refine hlines.subset ?_
  rw [lineStarts, dif_neg hne]
  exact List.mem_cons_self

/-- A line of spaces alone does not change what the others share. -/
theorem sharedIndent_line (a b : String) (hw : isSpaceText w.toList = true) :
    sharedIndent a (w ++ "\n" ++ b) = sharedIndent a b := by
  rw [sharedIndent, toList_between, splitLines_append, ← List.append_assoc,
    commonIndent_spaces _ _ hw, sharedIndent]

theorem remainder_line (a : String) (hw : isSpaceText w.toList = true) (hfeed : '\n' ∉ w.toList)
    (hb : isSpaceText b.toList = false) : remainder a (w ++ "\n" ++ b) =
      outdentLine (sharedIndent a b) w.toList ++ '\n' :: remainder a b := by
  have hline (width : Nat) : outdent width w.toList = outdentLine width w.toList := by
    rw [outdent, splitLines_of_not_mem hfeed]
    rfl
  rw [remainder, sharedIndent_line a b hw, toList_between, outdent_append, hline, List.append_cons,
    dropTrailing_append_right (by rwa [isSpaceText_outdent]), ← List.append_cons, remainder]

/-- A line of blanks between the lines of two texts leaves their opening lines alike. -/
theorem openingLines_blank_line {ls : List OpeningLine} (ha : isSpaceText a.toList = false)
    (hb : isSpaceText b.toList = false) (hw : isBlankText w.toList = true)
    (hfeed : '\n' ∉ w.toList) (hls : openingLines (dedent (a ++ "\n" ++ b)) = .ok ls)
    (hout : Outside a b) : ∃ ls',
      openingLines (dedent (a ++ "\n" ++ (w ++ "\n" ++ b))) = .ok ls' ∧
      ls'.map OpeningLine.traits = ls.map OpeningLine.traits := by
  have hspaces := isSpaceText_of_isBlankText hw
  have hfirst := firstLine_blank_line (b := remainder a b)
    ((isBlankText_outdentLine (sharedIndent a b) w.toList).trans hw)
    fun h => hfeed ((outdentLine_suffix _ _).subset h)
  have hlines : isSpaceText (w ++ "\n" ++ b).toList = false := by
    rw [isSpaceText_between, hb, Bool.and_false]
  -- Both texts start with what is left of `a`.
  have htext : Place.ofText (dedent (a ++ "\n" ++ b)) =
      (Place.mk 0 (front a b)).extend ('\n' :: remainder a b) := by
    rw [Place.ofText, dedent_between ha hb, Place.extend]
  have htext' : Place.ofText (dedent (a ++ "\n" ++ (w ++ "\n" ++ b))) =
      (Place.mk 0 (front a b)).extend
        ('\n' :: (outdentLine (sharedIndent a b) w.toList ++ '\n' :: remainder a b)) := by
    rw [Place.ofText, dedent_between ha hlines, remainder_line a hspaces hfeed hb, front,
      sharedIndent_line a b hspaces, Place.extend, front]
  have hseam : (seam a b).firstLine.rest = (Place.mk 0 (remainder a b)).firstLine.rest :=
    Place.firstLine_congr (rest_seam ha hb)
  have hswallows : ∀ l ∈ ls, ¬l.Swallows (Place.mk 0 (remainder a b)).firstLine := by
    intro l hl
    have hl := hout ls hls l hl
    rwa [OpeningLine.Swallows, hseam] at hl
  rw [openingLines, htext] at hls
  rw [openingLines, htext']
  exact openingLinesFrom_refill hfirst (resumes_extend _ _) (resumes_extend _ _) hls hswallows

/-- A line of other spaces is refused. -/
theorem isBlankText_of_openingLines {ls : List OpeningLine} (ha : isSpaceText a.toList = false)
    (hb : isSpaceText b.toList = false) (hw : isSpaceText w.toList = true)
    (hfeed : '\n' ∉ w.toList) (hout : Outside a (w ++ "\n" ++ b))
    (hls : openingLines (dedent (a ++ "\n" ++ (w ++ "\n" ++ b))) = .ok ls) :
    isBlankText w.toList = true := by
  have hlines : isSpaceText (w ++ "\n" ++ b).toList = false := by
    rw [isSpaceText_between, hb, Bool.and_false]
  set line := outdentLine (sharedIndent a b) w.toList with hline
  have hrest : (seam a (w ++ "\n" ++ b)).rest = line ++ '\n' :: remainder a b := by
    rw [rest_seam ha hlines, remainder_line a hw hfeed hb]
  have hlineFeed : '\n' ∉ line := fun h => hfeed ((outdentLine_suffix _ _).subset h)
  have hlineSpaces : isSpaceText line = true := (isSpaceText_outdentLine _ _).trans hw
  rw [← isBlankText_outdentLine (sharedIndent a b), ← hline]
  by_contra hblank
  rw [Bool.not_eq_true] at hblank
  have hseam : isBlankText (seam a (w ++ "\n" ++ b)).line = false :=
    (isBlankText_line_append hrest hlineFeed).trans hblank
  have hopens := (openingLines_spec hls (seam_mem_lineStarts ha hlines)).2 ⟨hseam, ?_⟩
  · obtain ⟨l, hl, hstart⟩ := hopens
    have hc := lineContent_of_mem hls hl
    rw [OpeningLine.indent, hstart] at hc
    exact lineContent_ne_ok_of_spaces hrest hlineSpaces hblank _ _ hc
  · have hout := hout ls hls
    rwa [Place.firstLine_of_not_blank hseam] at hout

/-- Before the first line with more than spaces and after the last one, a line of spaces alone is
    dropped. -/
theorem dedent_line_outside (hw : isSpaceText w.toList = true)
    (hab : isSpaceText a.toList = true ∨ isSpaceText b.toList = true) :
    dedent (a ++ "\n" ++ (w ++ "\n" ++ b)) = dedent (a ++ "\n" ++ b) := by
  rw [dedent, dedent, toList_between, toList_between a]
  refine congrArg String.ofList ?_
  rcases hab with ha | hb
  · rw [dedentChars_append_left ha, dedentChars_append_left ha, toList_between,
      dedentChars_append_left hw]
  · have hboth : isSpaceText (w ++ "\n" ++ b).toList = true := by
      rw [isSpaceText_between, hw, hb, Bool.and_true]
    rw [dedentChars_append_right hboth, dedentChars_append_right hb]

end Between

namespace Template

variable {a w b : String} {t : Template}

theorem compile_single_iff {f : String} : compile [f] = .ok t ↔
    ∃ block, Block.parse (dedent f) = .ok block ∧ t = fixed block.toValue := by
  rw [compile, encode_single, map_eq_ok_iff]
  exact exists_congr fun block => and_congr_right fun _ => eq_comm

/-- The line `w` between `a` and `b` is blank, or else no line before it or no line after it holds
    more than spaces. -/
def Skipped (a w b : String) : Prop :=
  isBlankText w.toList = true ∨ isSpaceText a.toList = true ∨ isSpaceText b.toList = true

instance (a w b : String) : Decidable (Skipped a w b) := inferInstanceAs (Decidable (_ ∨ _ ∨ _))

/-- A line of spaces alone is put where no attribute list, no comment and no text block goes on. If
    it is skipped, what is compiled is the same template. Else it is not compiled, unless a comment
    or a text block takes the line. -/
theorem compile_blank_line (hw : isSpaceText w.toList = true) (hfeed : '\n' ∉ w.toList)
    (hout : Outside a b) (h : compile [a ++ "\n" ++ b] = .ok t) :
    (Skipped a w b → compile [a ++ "\n" ++ w ++ "\n" ++ b] = .ok t) ∧
      (Outside a (w ++ "\n" ++ b) →
        (∃ t', compile [a ++ "\n" ++ w ++ "\n" ++ b] = .ok t') → Skipped a w b) := by
  have hassoc : a ++ "\n" ++ w ++ "\n" ++ b = a ++ "\n" ++ (w ++ "\n" ++ b) := by
    simp only [String.append_assoc]
  rw [hassoc]
  obtain ⟨block, hblock, rfl⟩ := compile_single_iff.1 h
  by_cases hab : isSpaceText a.toList = true ∨ isSpaceText b.toList = true
  · refine ⟨fun _ => compile_single_iff.2 ⟨block, ?_, rfl⟩, fun _ _ => .inr hab⟩
    rw [dedent_line_outside hw hab, hblock]
  · obtain ⟨ha, hb⟩ : isSpaceText a.toList = false ∧ isSpaceText b.toList = false := by
      simpa [not_or] using hab
    refine ⟨fun hskipped => ?_, fun hline ⟨t', ht'⟩ => .inl ?_⟩
    · obtain ⟨ls, -, hls, -⟩ := accepted_of_parse hblock
      obtain ⟨ls', hls', htraits⟩ :=
        openingLines_blank_line ha hb (hskipped.resolve_right hab) hfeed hls hout
      obtain ⟨block', hblock', hvalue⟩ := Block.parse_of_traits hblock hls hls' htraits
      exact compile_single_iff.2 ⟨block', hblock', by rw [hvalue]⟩
    · obtain ⟨block', hblock', -⟩ := compile_single_iff.1 ht'
      obtain ⟨ls', -, hls', -⟩ := accepted_of_parse hblock'
      exact isBlankText_of_openingLines ha hb hw hfeed hline hls'

/-- After a text block, a line of a tab, a form feed and a carriage return is skipped, but none of
    a form feed and an em space. -/
theorem compile_blank_line_ascii : ∃ t,
    let a := "  p.\n\n     a\n   b"
    let b := "\n  q(c\n    d)\n  // e"
    compile [a ++ "\n" ++ b] = .ok t ∧ compile [a ++ "\n" ++ "\t\x0c\r" ++ "\n" ++ b] = .ok t ∧
      ∀ t', compile [a ++ "\n" ++ "\x0c\u2003" ++ "\n" ++ b] ≠ .ok t' := by
  have hsome : (compile ["  p.\n\n     a\n   b" ++ "\n" ++
      "\n  q(c\n    d)\n  // e"]).toOption.isSome = true := by
    decide +kernel
  obtain ⟨t, ht⟩ := Option.isSome_iff_exists.1 hsome
  have hout : Outside "  p.\n\n     a\n   b" "\n  q(c\n    d)\n  // e" := by decide +kernel
  have hline := compile_blank_line (w := "\t\x0c\r") (by decide) (by decide) hout
    (ok_of_toOption ht)
  have hspaces := compile_blank_line (w := "\x0c\u2003") (by decide) (by decide) hout
    (ok_of_toOption ht)
  refine ⟨t, ok_of_toOption ht, hline.1 (by decide +kernel), fun t' ht' => ?_⟩
  exact absurd (hspaces.2 (by decide +kernel) ⟨t', ht'⟩) (by decide +kernel)

/-- A no-break space on a line of its own is no tag. -/
theorem compile_space_line :
    isSpaceText "\u00a0".toList = true ∧ '\n' ∉ "\u00a0".toList ∧ Outside "a" "b" ∧
      (∃ t, compile ["a\nb"] = .ok t) ∧ ∀ t, compile ["a\n\u00a0\nb"] ≠ .ok t := by
  have hsome : (compile ["a\nb"]).toOption.isSome = true := by decide +kernel
  have hnone : (compile ["a\n\u00a0\nb"]).toOption.isSome = false := by decide +kernel
  obtain ⟨t, ht⟩ := Option.isSome_iff_exists.1 hsome
  refine ⟨by decide, by decide, by decide +kernel, ⟨t, ok_of_toOption ht⟩, fun t ht => ?_⟩
  rw [ht] at hnone
  cases hnone

end Template

end SlotMarkup
