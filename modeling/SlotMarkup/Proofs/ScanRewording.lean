import SlotMarkup.Proofs.ReaderRewording

/-!
# Scanning a reworded text

A text in other words is cut into the same tokens, in other words
(`scan_reword`), as long as the names of its tags stay: the lexer knows some of
them. Every line is read as before (`lineContent_reword`), and the indentation
that the nested lines share does not change (`blockLines_reword`).
-/

namespace SlotMarkup

/-! ## Nested lines -/

/-- The line that a text starts with. -/
def lineOf (cs : List Char) : List Char := (Place.mk 0 cs).line

/-- The smallest indentation of some lines, given by the texts they start, blank lines
    left out. -/
def blockWidth (starts : List (List Char)) : Nat :=
  (((starts.filter fun cs => !isBlankText (lineOf cs)).map indentWidth).min?).getD 0

/-- The line that a text starts with, less some indentation, and nothing of a blank one. -/
def strippedLine (width : Nat) (cs : List Char) : List Char :=
  if isBlankText (lineOf cs) then [] else (lineOf cs).drop width

/-- The lines that are kept of nested lines, given by the texts they start. -/
def blockLines (starts : List (List Char)) : List (List Char) :=
  let kept := dropTrailing (fun cs => isBlankText (lineOf cs)) starts
  kept.map (strippedLine (blockWidth kept))

/-- Elements are dropped at the end before they are mapped or after. -/
theorem map_dropTrailing {α β : Type} {f : α → Bool} {g : β → Bool} {e : α → β} {l : List α}
    (h : ∀ a ∈ l, g (e a) = f a) : (dropTrailing f l).map e = dropTrailing g (l.map e) := by
  have hdrop (l : List α) (h : ∀ a ∈ l, g (e a) = f a) :
      (l.dropWhile f).map e = (l.map e).dropWhile g := by
    induction l with
    | nil => rfl
    | cons a l ih =>
      rw [List.forall_mem_cons] at h
      rw [List.map_cons, List.dropWhile_cons, List.dropWhile_cons, h.1]
      split
      · exact ih h.2
      · rfl
  rw [dropTrailing, dropTrailing, List.map_reverse, hdrop _ fun a ha => h a (List.mem_reverse.1 ha),
    List.map_reverse]

/-- What the lines nested below a line hold depends on the text alone. -/
theorem chars_nestedLines (base : Nat) (p : Place) : (nestedLines base p).1.map Stretch.chars =
    blockLines ((nestedRun base p).1.map Place.rest) := by
  have hkept := map_dropTrailing (f := fun q : Place => isBlankText q.line)
    (g := fun cs => isBlankText (lineOf cs)) (e := Place.rest) (l := (nestedRun base p).1)
    fun _ _ => rfl
  rw [nestedLines, blockLines]
  dsimp only
  generalize dropTrailing (fun q : Place => isBlankText q.line) (nestedRun base p).1 = kept
    at hkept ⊢
  have hwidth : (((kept.filter fun q => !isBlankText q.line).map Place.indent).min?).getD 0 =
      blockWidth (kept.map Place.rest) := by
    rw [blockWidth, List.filter_map, List.map_map]
    rfl
  rw [← hkept, hwidth, List.map_map, List.map_map]
  refine List.map_congr_left fun q hq => stripLine_chars fun hb => ?_
  rw [← hwidth]
  exact List.min?_getD_le_of_mem (List.mem_map_of_mem (List.mem_filter.2 ⟨hq, by simp [hb]⟩))

section Scan

variable {σ : List Char → List Char} (hσ : Rewording σ)

include hσ

/-- The line of a reworded text is the reworded line. -/
theorem line_reword {p p' : Place} (hp : p'.rest = σ p.rest) : p'.line = σ p.line := by
  have hrun := hσ.takeWhile (uniform_ne (c := '\n') rfl) p.rest
  rw [Place.line, Place.line, hp, hrun]
  simp only [hσ.getLast?_eq_iff (show isWord '\r' = false from rfl)]
  split
  · rename_i hlast
    obtain ⟨ds, hds⟩ := List.getLast?_eq_some_iff.1 hlast
    have hcr : NoWord ['\r'] := fun d hd => List.mem_singleton.1 hd ▸ rfl
    rw [hds, hσ.append_noWord hcr, List.dropLast_concat, List.dropLast_concat]
  · rfl

/-- Behind a line the texts go on alike. -/
theorem nextLine_reword {p p' : Place} (hp : p'.rest = σ p.rest) :
    p'.nextLine.rest = σ p.nextLine.rest := by
  rw [Place.rest_nextLine, Place.rest_nextLine, hp, hσ.dropWhile (uniform_ne rfl)]
  cases hd : p.rest.dropWhile (· != '\n') with
  | nil => simp [hσ.nil]
  | cons c ds =>
    rw [eq_of_dropWhile_ne hd]
    exact hσ.drop_one rfl ds

/-- A line is blank in both texts or in none. -/
theorem isBlankText_line_reword {p p' : Place} (hp : p'.rest = σ p.rest) :
    isBlankText p'.line = isBlankText p.line := by
  rw [line_reword hσ hp, hσ.isBlankText]

/-- A line is indented alike in both texts. -/
theorem indent_reword {p p' : Place} (hp : p'.rest = σ p.rest) : p'.indent = p.indent := by
  rw [Place.indent, hp, hσ.indentWidth, Place.indent]

/-- A line loses the same indentation in both texts. -/
theorem strippedLine_reword {width : Nat} {cs : List Char}
    (h : isBlankText (lineOf cs) = false → width ≤ indentWidth cs) :
    strippedLine width (σ cs) = σ (strippedLine width cs) := by
  have hline : lineOf (σ cs) = σ (lineOf cs) := line_reword hσ rfl
  rw [strippedLine, strippedLine, hline, hσ.isBlankText]
  split
  · exact hσ.nil.symm
  · rename_i hb
    have hindent : indentWidth (lineOf cs) = indentWidth cs := Place.indentWidth_line ⟨0, cs⟩
    exact hσ.drop_indent (hindent ▸ h (by simpa using hb))

/-- The nested lines share the same indentation in other words. -/
theorem blockLines_reword (starts : List (List Char)) :
    blockLines (starts.map σ) = (blockLines starts).map σ := by
  have hline : ∀ cs, isBlankText (lineOf (σ cs)) = isBlankText (lineOf cs) :=
    fun cs => isBlankText_line_reword hσ rfl
  have hwidth : ∀ kept : List (List Char), blockWidth (kept.map σ) = blockWidth kept := by
    intro kept
    have hblank : (fun cs => !isBlankText (lineOf cs)) ∘ σ = fun cs => !isBlankText (lineOf cs) :=
      funext fun cs => congrArg _ (hline cs)
    rw [blockWidth, blockWidth, List.filter_map, hblank, List.map_map,
      show indentWidth ∘ σ = indentWidth from funext hσ.indentWidth]
  rw [blockLines, blockLines, ← map_dropTrailing (e := σ) fun cs _ => hline cs, hwidth,
    List.map_map, List.map_map]
  refine List.map_congr_left fun cs hcs => strippedLine_reword hσ fun hb => ?_
  exact List.min?_getD_le_of_mem (List.mem_map_of_mem (List.mem_filter.2 ⟨hcs, by simp [hb]⟩))

/-- The same lines are nested in both texts. -/
theorem nestedRun_reword (base : Nat) {p p' : Place} (hp : p'.rest = σ p.rest) :
    (nestedRun base p').1.map Place.rest = ((nestedRun base p).1.map Place.rest).map σ ∧
      (nestedRun base p').2.rest = σ (nestedRun base p).2.rest := by
  fun_induction nestedRun base p generalizing p' with
  | case1 p hnil =>
    have hnil' : p'.rest = [] := by rw [hp, hnil, hσ.nil]
    rw [nestedRun, dif_pos hnil']
    exact ⟨rfl, hp⟩
  | case2 p hne hmore lines next h ih =>
    have hne' : p'.rest ≠ [] := by rwa [hp, ne_eq, hσ.eq_nil_iff]
    rw [← isBlankText_line_reword hσ hp, ← indent_reword hσ hp] at hmore
    obtain ⟨hlines, hnext⟩ := ih (nextLine_reword hσ hp)
    rw [h] at hlines hnext
    rw [nestedRun, dif_neg hne', if_pos hmore]
    exact ⟨by rw [List.map_cons, hlines, hp]; rfl, hnext⟩
  | case3 p hne hmore =>
    have hne' : p'.rest ≠ [] := by rwa [hp, ne_eq, hσ.eq_nil_iff]
    rw [← isBlankText_line_reword hσ hp, ← indent_reword hσ hp] at hmore
    rw [nestedRun, dif_neg hne', if_neg hmore]
    exact ⟨rfl, hp⟩

/-- What is collected of nested lines is reworded line by line. -/
theorem nestedLines_reword (base : Nat) {p p' : Place} (hp : p'.rest = σ p.rest) :
    (nestedLines base p').1.map Stretch.chars = ((nestedLines base p).1.map Stretch.chars).map σ ∧
      (nestedLines base p').2.rest = σ (nestedLines base p).2.rest := by
  obtain ⟨hrun, hnext⟩ := nestedRun_reword hσ base hp
  exact ⟨by rw [chars_nestedLines, chars_nestedLines, hrun, blockLines_reword hσ], hnext⟩

/-! ## Bodies -/

theorem textLineTokens_reword {l l' : Stretch} (h : l'.chars = σ l.chars) :
    Rewords σ (textLineTokens l) (textLineTokens l') := by
  rw [textLineTokens, textLineTokens, h]
  simp only [hσ.eq_nil_iff]
  split
  · exact rewords_nil
  · exact rewords_single (by simp [Lexeme.reword])

/-- The tokens of a text block are reworded with its lines. -/
theorem textLinesTokens_reword {ls ls' : List Stretch}
    (h : ls'.map Stretch.chars = (ls.map Stretch.chars).map σ) :
    Rewords σ (textLinesTokens ls) (textLinesTokens ls') := by
  induction ls generalizing ls' with
  | nil =>
    obtain rfl := List.map_eq_nil_iff.1 h
    exact rewords_nil
  | cons l ls ih =>
    obtain ⟨l', ls', rfl, hl, hls⟩ := List.map_eq_cons_iff.1 h
    exact .cons rfl ((textLineTokens_reword hσ hl).append (ih hls))

/-- The tokens of a text block depend on the lines nested below it. -/
theorem textBlock_reword_of_chars {indent : Nat} {p p' : Place}
    (hlines : (nestedLines indent p'.nextLine).1.map Stretch.chars =
      ((nestedLines indent p.nextLine).1.map Stretch.chars).map σ) :
    Rewords σ (textBlock indent p).1 (textBlock indent p').1 := by
  rw [textBlock, textBlock]
  dsimp only
  refine .cons rfl (.append ?_ (rewords_single rfl))
  generalize (nestedLines indent p.nextLine).1 = ls, (nestedLines indent p'.nextLine).1 = ls'
    at hlines
  cases ls with
  | nil =>
    obtain rfl := List.map_eq_nil_iff.1 hlines
    exact rewords_nil
  | cons l ls =>
    obtain ⟨l', ls', rfl, hl, hls⟩ := List.map_eq_cons_iff.1 hlines
    exact (textLineTokens_reword hσ hl).append (textLinesTokens_reword hσ hls)

/-- A text block is scanned reworded. -/
theorem textBlock_reword (indent : Nat) {p p' : Place}
    (hp : p'.nextLine.rest = σ p.nextLine.rest) :
    Rewords σ (textBlock indent p).1 (textBlock indent p').1 ∧
      (textBlock indent p').2.rest = σ (textBlock indent p).2.rest := by
  obtain ⟨hlines, hnext⟩ := nestedLines_reword hσ indent hp
  exact ⟨textBlock_reword_of_chars hσ hlines, hnext⟩

/-- A line ends in both texts or in none. -/
theorem atLineEnd_reword {p p' : Place} (hp : p'.rest = σ p.rest) : atLineEnd p' = atLineEnd p := by
  have hbreak : Uniform fun c => c == '\n' || c == '\r' := uniform_of_no_word fun c hc => by
    rcases Bool.or_eq_true _ _ ▸ hc with h | h <;> (rw [beq_iff_eq.1 h]; rfl)
  have hend : ∀ q : Place, atLineEnd q =
      (q.rest.head?.map fun c => c == '\n' || c == '\r').getD true := fun q => by
    rw [atLineEnd]
    cases q.rest <;> rfl
  rw [hend, hend, hp, hσ.map_head? hbreak]

/-- Past a character in no word, the texts are the same up to their words. -/
theorem drop_one_reword {p p' : Place} {c : Char} {cs : List Char} (hc : isWord c = false)
    (hcs : p.rest = c :: cs) (hp : p'.rest = σ p.rest) : (p'.drop 1).rest = σ (p.drop 1).rest := by
  rw [Place.rest_drop, Place.rest_drop, hp, hcs, hσ.drop_one hc]
  rfl

/-- What follows a head is scanned reworded. -/
theorem tagBody_reword {indent : Nat} {p p' q : Place} {ts : List Token} (hp : p'.rest = σ p.rest)
    (h : tagBody indent p = .ok (ts, q)) : Rereads σ ts q (tagBody indent p') := by
  have hend' := atLineEnd_reword hσ hp
  have hnext := nextLine_reword hσ hp
  have hblank : ∀ {c cs}, isWord c = false → p.rest = c :: cs →
      restIsBlank (p'.drop 1) = restIsBlank (p.drop 1) := fun hc hcs =>
    isBlankText_line_reword hσ (drop_one_reword hσ hc hcs hp)
  rw [tagBody] at h
  split at h
  · rename_i hend
    obtain ⟨rfl, rfl⟩ := Prod.mk.inj (Except.ok.inj h)
    rw [tagBody, if_pos (hend'.trans hend)]
    exact ⟨[], _, rfl, rewords_nil, hnext⟩
  · rename_i hend
    rw [tagBody, if_neg (hend' ▸ hend)]
    split at h
    · -- A dot starts a text block, on the lines below.
      rename_i cs hcs
      have hcs' : p'.rest = '.' :: σ cs := by rw [hp, hcs, hσ.cons rfl]
      split at h
      · rename_i hb
        obtain ⟨hts, hq⟩ := textBlock_reword hσ indent hnext
        rw [Except.ok.inj h] at hts hq
        simp only [hcs', if_pos ((hblank rfl hcs).trans hb)]
        exact ⟨_, _, rfl, hts, hq⟩
      · simp at h
    · -- After a space comes the text of the tag, unless it is blank.
      rename_i cs hcs
      have hcs' : p'.rest = ' ' :: σ cs := by rw [hp, hcs, hσ.cons rfl]
      have hline := line_reword hσ (drop_one_reword hσ rfl hcs hp)
      dsimp only at h
      simp only [hcs', hline, hσ.isBlankText]
      split at h
      · obtain ⟨rfl, rfl⟩ := Prod.mk.inj (Except.ok.inj h)
        exact ⟨[], _, if_pos ‹_›, rewords_nil, hnext⟩
      · obtain ⟨rfl, rfl⟩ := Prod.mk.inj (Except.ok.inj h)
        exact ⟨_, _, if_neg ‹_›, rewords_single (by simp [Token.read, Lexeme.reword]), hnext⟩
    · -- A slash closes the tag.
      rename_i cs hcs
      have hcs' : p'.rest = '/' :: σ cs := by rw [hp, hcs, hσ.cons rfl]
      split at h
      · rename_i hb
        obtain ⟨rfl, rfl⟩ := Prod.mk.inj (Except.ok.inj h)
        simp only [hcs', if_pos ((hblank rfl hcs).trans hb)]
        exact ⟨[], _, rfl, rewords_nil, hnext⟩
      · simp at h
    all_goals simp at h

/-! ## Tags -/

/-- A line of tags is scanned reworded, if the names of tags stay. -/
theorem tagLine_reword {indent : Nat} {p p' q : Place} {ts : List Token} (hp : p'.rest = σ p.rest)
    (h : tagLine indent p = .ok (ts, q)) (hnames : TagNames (fun name => reword σ name = name) ts) :
    Rereads σ ts q (tagLine indent p') := by
  fun_induction tagLine indent p generalizing ts p' with
  | case1 => simp at h
  | case2 => simp at h
  | case3 p head r hp' =>
    rename_i hcolon s hend ih
    obtain ⟨us, hus, rfl⟩ := Scan.after_eq_ok_iff.1 h
    obtain ⟨head', r', hhead, hts, hr⟩ := tagHead_reword hσ hp hp' (hnames.of_prefix (by simp))
    obtain ⟨cs, hcs⟩ := List.head?_eq_some_iff.1 hcolon
    have hs := skip_reword hσ uniform_isIndent (drop_one_reword hσ rfl hcs hr)
    have hcolon' : r'.rest.head? = some ':' := by rwa [hr, hσ.head?_eq_iff rfl]
    have hend' := (atLineEnd_reword hσ hs).trans (by simpa using hend)
    rw [tagLine_colon hhead hcolon' hend']
    exact (ih hs hus (hnames.of_suffix (List.suffix_append _ _))).after
      (hts.append (rewords_single rfl))
  | case4 p head r hp' hcolon =>
    obtain ⟨us, hus, rfl⟩ := Scan.after_eq_ok_iff.1 h
    obtain ⟨head', r', hhead, hts, hr⟩ := tagHead_reword hσ hp hp' (hnames.of_prefix (by simp))
    have hcolon' : ¬r'.rest.head? = some ':' := by rwa [hr, hσ.head?_eq_iff rfl]
    rw [tagLine_body hhead hcolon']
    exact (tagBody_reword hσ hr hus).after hts

/-! ## Lines -/

/-- A piped line is scanned reworded. The bar and the space behind it are in no word. -/
theorem pipedLine_reword {p p' : Place} {cs : List Char} (hcs : p.rest = '|' :: cs)
    (hp : p'.rest = σ p.rest) : Rewords σ (pipedLine p).1 (pipedLine p').1 ∧
      (pipedLine p').2.rest = σ (pipedLine p).2.rest := by
  have hline := line_reword hσ (drop_one_reword hσ rfl hcs hp)
  refine ⟨rewords_single ?_, nextLine_reword hσ hp⟩
  simp only [Token.read, Lexeme.reword, reword_ofList, hline]
  generalize (p.drop 1).line = l
  refine congrArg (fun cs => Lexeme.text (String.ofList cs)) ?_
  -- A single space after the pipe is left out.
  split
  · rename_i ds hds
    obtain ⟨es, rfl, rfl⟩ := hσ.of_cons rfl hds
    rfl
  · rename_i hds
    split
    · exact absurd (hσ.cons rfl _) (hds _)
    · rfl

/-- A line of literal markup is scanned reworded. -/
theorem literalLine_reword {p p' : Place} (hp : p'.rest = σ p.rest) :
    Rewords σ (literalLine p).1 (literalLine p').1 ∧
      (literalLine p').2.rest = σ (literalLine p).2.rest := by
  refine ⟨rewords_single ?_, nextLine_reword hσ hp⟩
  simp only [Token.read, Lexeme.reword, reword_ofList, line_reword hσ hp]

/-- Lines that are joined by line feeds are reworded one by one. -/
theorem joinedLines_reword (first : List Char) {ls ls' : List Stretch}
    (h : ls'.map Stretch.chars = (ls.map Stretch.chars).map σ) :
    σ (first ++ ls.flatMap fun l => '\n' :: l.chars) =
      σ first ++ ls'.flatMap fun l => '\n' :: l.chars := by
  induction ls generalizing first ls' with
  | nil =>
    obtain rfl := List.map_eq_nil_iff.1 h
    simp
  | cons l ls ih =>
    obtain ⟨l', ls', rfl, hl, hls⟩ := List.map_eq_cons_iff.1 h
    rw [List.flatMap_cons, List.cons_append, hσ.append (wordBreak_cons_right rfl), hσ.cons rfl,
      ih _ hls, List.flatMap_cons, hl]
    rfl

/-- The token of a comment depends on its own line and the lines nested below it. -/
theorem commentLines_reword_of_chars {indent : Nat} {p p' : Place}
    (hbuffered : ((p'.rest.drop 2).head? != some '-') = ((p.rest.drop 2).head? != some '-'))
    (hfirst : ∀ n, n = (if (p.rest.drop 2).head? != some '-' then 2 else 3) →
      p'.line.drop n = σ (p.line.drop n))
    (hlines : (nestedLines indent p'.nextLine).1.map Stretch.chars =
      ((nestedLines indent p.nextLine).1.map Stretch.chars).map σ) :
    Rewords σ (commentLines indent p).1 (commentLines indent p').1 := by
  rw [commentLines, commentLines, hbuffered]
  refine rewords_single ?_
  simp only [Token.read, Lexeme.reword, reword_ofList, hfirst _ rfl, trimLeft,
    joinedLines_reword hσ _ hlines, hσ.dropWhile uniform_isSpace]

/-- A comment is scanned reworded, together with the lines nested below it. -/
theorem commentLines_reword (indent : Nat) {p p' : Place} {cs : List Char}
    (hcs : p.rest = '/' :: '/' :: cs) (hp : p'.rest = σ p.rest) :
    Rewords σ (commentLines indent p).1 (commentLines indent p').1 ∧
      (commentLines indent p').2.rest = σ (commentLines indent p).2.rest := by
  have hrest : p'.rest.drop 2 = σ cs := by rw [hp, hcs, hσ.cons rfl, hσ.cons rfl]; rfl
  have hbuffered : (p'.rest.drop 2).head? = some '-' ↔ (p.rest.drop 2).head? = some '-' := by
    rw [hrest, hcs, hσ.head?_eq_iff rfl]
    rfl
  have hbuffered' : ((p'.rest.drop 2).head? != some '-') = ((p.rest.drop 2).head? != some '-') := by
    rw [Bool.eq_iff_iff, bne_iff_ne, bne_iff_ne, ne_eq, ne_eq, hbuffered]
  -- Only the slashes and possibly the hyphen are dropped.
  have hfirst : ∀ n, n = (if (p.rest.drop 2).head? != some '-' then 2 else 3) →
      p'.line.drop n = σ (p.line.drop n) := by
    rintro n rfl
    rw [line_reword hσ hp]
    refine hσ.drop_of_noWord ?_
    rw [Place.line_comment hcs]
    split
    · simp [NoWord, show isWord '/' = false from rfl]
    · rename_i hy
      have hy' : (p.drop 2).rest.head? = some '-' := by simpa using hy
      obtain ⟨ds, hds⟩ := List.head?_eq_some_iff.1 hy'
      rw [Place.line_cons hds (by decide) (by decide)]
      simp [NoWord, show isWord '/' = false from rfl, show isWord '-' = false from rfl]
  obtain ⟨hlines, hnext⟩ := nestedLines_reword hσ indent (nextLine_reword hσ hp)
  exact ⟨commentLines_reword_of_chars hσ hbuffered' hfirst hlines, hnext⟩

/-- Whatever a line is, it is scanned reworded if the names of tags stay. -/
theorem lineContent_reword {indent : Nat} {p p' q : Place} {ts : List Token}
    (hp : p'.rest = σ p.rest) (h : lineContent indent p = .ok (ts, q))
    (hnames : TagNames (fun name => reword σ name = name) ts) :
    Rereads σ ts q (lineContent indent p') := by
  rw [lineContent] at h
  split at h
  · rename_i cs hcs
    obtain ⟨hts, hq⟩ := commentLines_reword hσ indent hcs hp
    rw [Except.ok.inj h] at hts hq
    rw [hcs, hσ.cons rfl, hσ.cons rfl] at hp
    simp only [lineContent, hp]
    exact ⟨_, _, rfl, hts, hq⟩
  · simp at h
  · rename_i cs hcs
    obtain ⟨hts, hq⟩ := pipedLine_reword hσ hcs hp
    rw [Except.ok.inj h] at hts hq
    rw [hcs, hσ.cons rfl] at hp
    simp only [lineContent, hp]
    exact ⟨_, _, rfl, hts, hq⟩
  · rename_i cs hcs
    obtain ⟨hts, hq⟩ := literalLine_reword hσ hp
    rw [Except.ok.inj h] at hts hq
    rw [hcs, hσ.cons rfl] at hp
    simp only [lineContent, hp]
    exact ⟨_, _, rfl, hts, hq⟩
  · simp at h
  · simp at h
  · simp at h
  · rename_i hslash hbang hbar hangle hhyphen hequals hplus
    -- Signs are in no word: a line of tags does not start with them in other words either.
    have hline : lineContent indent p' = tagLine indent p' := by
      rw [lineContent]
      split
      · exact absurd (hp.symm.trans ‹_›) (hσ.ne_cons_cons rfl rfl hslash _)
      · exact absurd (hp.symm.trans ‹_›) (hσ.ne_cons_cons rfl rfl hbang _)
      · exact absurd (hp.symm.trans ‹_›) (hσ.ne_cons rfl hbar _)
      · exact absurd (hp.symm.trans ‹_›) (hσ.ne_cons rfl hangle _)
      · exact absurd (hp.symm.trans ‹_›) (hσ.ne_cons rfl hhyphen _)
      · exact absurd (hp.symm.trans ‹_›) (hσ.ne_cons rfl hequals _)
      · exact absurd (hp.symm.trans ‹_›) (hσ.ne_cons rfl hplus _)
      · rfl
    rw [hline]
    exact tagLine_reword hσ hp h hnames

/-! ## Texts -/

/-- Indentation mixes spaces and tabs in both texts or in none. -/
theorem mixesIndent_reword {p p' : Place} (hp : p'.rest = σ p.rest) :
    mixesIndent p' = mixesIndent p := by
  rw [mixesIndent, mixesIndent, hp, hσ.takeWhile_isIndent]

omit hσ in
/-- Lexemes without strings are the same in other words. -/
theorem rewords_map {ls : List Lexeme} (h : ∀ l ∈ ls, l.reword σ = l) (s s' : Span) :
    Rewords σ (ls.map (⟨·, s⟩)) (ls.map (⟨·, s'⟩)) := by
  rw [Rewords, List.map_map, List.map_map]
  exact List.map_congr_left fun l hl => (h l hl).symm

omit hσ in
theorem rewords_closing (levels : List Nat) (p p' : Place) :
    Rewords σ (closing levels p) (closing levels p') := by
  have hplain : ∀ q : Place, closing levels q =
      ((levels.map fun _ => Lexeme.outdent) ++ [Lexeme.eof]).map (⟨·, q.point⟩) := fun q => by
    rw [closing, List.map_append, List.map_map]
    rfl
  rw [hplain, hplain]
  refine rewords_map (fun l hl => ?_) _ _
  rcases List.mem_append.1 hl with hl | hl
  · obtain ⟨n, -, rfl⟩ := List.mem_map.1 hl
    rfl
  · rw [List.mem_singleton.1 hl]
    rfl

/-- A text that is scanned is scanned reworded, line by line, if the names of tags stay. -/
theorem scanLines_reword {levels : List Nat} {first : Bool} {p p' : Place} {ts : List Token}
    (hp : p'.rest = σ p.rest) (h : scanLines levels first p = .ok ts)
    (hnames : TagNames (fun name => reword σ name = name) ts) :
    ∃ us, scanLines levels first p' = .ok us ∧ Rewords σ ts us := by
  fun_induction scanLines levels first p generalizing ts p' with
  | case1 levels first p hnil =>
    obtain rfl := Except.ok.inj h
    have hnil' : p'.rest = [] := by rw [hp, hnil, hσ.nil]
    rw [scanLines, dif_pos hnil']
    exact ⟨_, rfl, rewords_closing levels p p'⟩
  | case2 levels first p hne hb ih =>
    have hne' : p'.rest ≠ [] := by rwa [hp, ne_eq, hσ.eq_nil_iff]
    rw [scanLines, dif_neg hne', if_pos ((isBlankText_line_reword hσ hp).trans hb)]
    exact ih (nextLine_reword hσ hp) h hnames
  | case3 => simp at h
  | case4 => simp at h
  | case5 => simp at h
  | case6 levels first p hne hb start hmix opening inner hopen content next hcontent =>
    rename_i ih
    obtain ⟨more, hmore, rfl⟩ := map_eq_ok_iff.1 h
    have hne' : p'.rest ≠ [] := by rwa [hp, ne_eq, hσ.eq_nil_iff]
    have hb' : ¬isBlankText p'.line = true := by rwa [isBlankText_line_reword hσ hp]
    have hmix' : ¬mixesIndent p' = true := by rwa [mixesIndent_reword hσ hp]
    have hindent := indent_reword hσ hp
    have hstart : (p'.drop p'.indent).rest = σ start.rest := by
      rw [hindent, Place.rest_drop, Place.rest_drop, hp]
      exact hσ.drop_indent (Nat.le_refl _)
    have hafter := hnames.of_suffix (List.suffix_append _ _)
    obtain ⟨content', next', hcontent', hts, hnext⟩ := lineContent_reword hσ hstart hcontent
      (hafter.of_prefix (List.prefix_append _ _))
    obtain ⟨more', hmore', hus⟩ := ih hnext hmore (hafter.of_suffix (List.suffix_append _ _))
    rw [← hindent] at hopen hcontent'
    rw [scanLines_line hne' hb' hmix' hopen hcontent', hmore']
    refine ⟨_, rfl, .append (rewords_map (fun l hl => ?_) _ _) (hts.append hus)⟩
    rcases mem_opening hopen hl with rfl | rfl | rfl <;> rfl

/-- A text in other words is cut into the same tokens, in other words. -/
theorem scan_reword {text text' : String} {ts : List Token} (htext : text'.toList = σ text.toList)
    (h : Token.scan text = .ok ts) (hnames : TagNames (fun name => reword σ name = name) ts) :
    ∃ us, Token.scan text' = .ok us ∧ Rewords σ ts us :=
  scanLines_reword hσ (show (Place.ofText text').rest = σ (Place.ofText text).rest from htext)
    h hnames

end Scan

end SlotMarkup
