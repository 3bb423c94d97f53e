import Mathlib.Data.List.Forall2
import Mathlib.Data.List.Induction
import Mathlib.Data.List.TakeWhile
import SlotMarkup.Proofs.Crlf

/-!
# Dedenting by lines

Dedenting takes the same width off the indentation of every line that holds more than spaces,
and then the spaces around the text. So of its lines those remain that stand between the first
and the last with more than spaces (`innerLines`), and only the first of them can lose more of its
indentation (`innerLines_dedentChars`).

* `splitLines_joinLines`: lines that are joined can be cut again;
* `trim_joinLines`: what the spaces around a text are in terms of its lines;
* `dedent_lines`: what dedenting keeps.
-/

namespace SlotMarkup

/-- Whether a text is made of spaces alone. -/
def isSpaceText (cs : List Char) : Bool := cs.all isSpace

/-- The lines of a text from the first to the last that holds more than spaces. -/
def innerLines (cs : List Char) : List (List Char) :=
  dropTrailing isSpaceText ((splitLines cs).dropWhile isSpaceText)

/-! ## Joined lines -/

/-- Rows of lines are joined by one more line feed between them. -/
theorem joinLines_append {ls ms : List (List Char)} (hl : ls ≠ []) (hm : ms ≠ []) :
    joinLines (ls ++ ms) = joinLines ls ++ '\n' :: joinLines ms := by
  induction ls with
  | nil => exact absurd rfl hl
  | cons l ls ih =>
    cases ls with
    | nil =>
      obtain ⟨m, ms, rfl⟩ := List.exists_cons_of_ne_nil hm
      rfl
    | cons k ls =>
      rw [List.cons_append, List.cons_append, joinLines_cons_cons, ← List.cons_append,
        ih (List.cons_ne_nil k ls), joinLines_cons_cons, List.append_assoc, List.cons_append]

/-- A line feed parts the lines before it from those behind it. -/
theorem splitLines_append (as bs : List Char) :
    splitLines (as ++ '\n' :: bs) = splitLines as ++ splitLines bs := by
  induction as with
  | nil => rfl
  | cons a as ih =>
    rw [List.cons_append, splitLines_cons, splitLines_cons, ih]
    split
    · rfl
    · obtain ⟨l, ls, hls⟩ := List.exists_cons_of_ne_nil (splitLines_ne_nil as)
      rw [hls]
      rfl

/-- A text without line feeds is one line. -/
theorem splitLines_of_not_mem {cs : List Char} (h : '\n' ∉ cs) : splitLines cs = [cs] := by
  induction cs with
  | nil => rfl
  | cons c cs ih =>
    rw [List.mem_cons, not_or] at h
    rw [splitLines_cons, if_neg (Ne.symm h.1), ih h.2]
    rfl

/-- Lines without line feeds are joined to a text of these lines. -/
theorem splitLines_joinLines {ls : List (List Char)} (hne : ls ≠ []) (h : ∀ l ∈ ls, '\n' ∉ l) :
    splitLines (joinLines ls) = ls := by
  induction ls with
  | nil => exact absurd rfl hne
  | cons l ls ih =>
    rw [List.forall_mem_cons] at h
    cases ls with
    | nil => exact splitLines_of_not_mem h.1
    | cons m ls =>
      rw [joinLines_cons_cons, splitLines_append, splitLines_of_not_mem h.1,
        ih (List.cons_ne_nil m ls) h.2, List.singleton_append]

/-! ## Spaces around lines -/

theorem isSpaceText_append (as bs : List Char) :
    isSpaceText (as ++ bs) = (isSpaceText as && isSpaceText bs) := List.all_append

theorem isBlankText_append (as bs : List Char) :
    isBlankText (as ++ bs) = (isBlankText as && isBlankText bs) := List.all_append

/-- What is blank is of spaces alone. -/
theorem isSpaceText_of_isBlankText {cs : List Char} (h : isBlankText cs = true) :
    isSpaceText cs = true :=
  List.all_eq_true.2 fun c hc => isSpace_of_isBlank (List.all_eq_true.1 h c hc)

/-- Only a text of spaces alone is left with nothing when it is trimmed at its start. -/
theorem isSpaceText_trimLeft (cs : List Char) : isSpaceText (trimLeft cs) = isSpaceText cs := by
  have hspaces : isSpaceText (cs.takeWhile isSpace) = true :=
    List.all_eq_true.2 fun c hc => mem_takeWhile hc
  conv => rhs; rw [← List.takeWhile_append_dropWhile (p := isSpace) (l := cs)]
  rw [isSpaceText_append, hspaces, Bool.true_and, trimLeft]

theorem isSpaceText_dropTrailing (cs : List Char) :
    isSpaceText (dropTrailing isSpace cs) = isSpaceText cs := by
  have hspaces : isSpaceText (cs.reverse.takeWhile isSpace).reverse = true :=
    List.all_eq_true.2 fun c hc => mem_takeWhile (List.mem_reverse.1 hc)
  conv => rhs; rw [← dropTrailing_append_takeWhile isSpace cs]
  rw [isSpaceText_append, hspaces, Bool.and_true]

/-- Before something else, the spaces at the end of a text are not dropped. -/
theorem trimLeft_append {as : List Char} (h : isSpaceText as = false) (bs : List Char) :
    trimLeft (as ++ bs) = trimLeft as ++ bs := by
  induction as with
  | nil => simp [isSpaceText] at h
  | cons a as ih =>
    rw [trimLeft, trimLeft, List.cons_append, List.dropWhile_cons, List.dropWhile_cons]
    split
    · rename_i ha
      rw [isSpaceText, List.all_cons, ha, Bool.true_and] at h
      exact ih h
    · rfl

/-- Spaces before a text are trimmed with those it starts with. -/
theorem trimLeft_append_spaces {as : List Char} (h : isSpaceText as = true) (bs : List Char) :
    trimLeft (as ++ bs) = trimLeft bs :=
  List.dropWhile_append_of_pos (List.all_eq_true.1 h)

/-- A text with more than spaces ends the trimming at the end, so what is before it is kept. -/
theorem dropTrailing_append_right {bs : List Char} (h : isSpaceText bs = false) (as : List Char) :
    dropTrailing isSpace (as ++ bs) = as ++ dropTrailing isSpace bs := by
  have hreverse : isSpaceText bs.reverse = false := by rwa [isSpaceText, List.all_reverse]
  rw [dropTrailing, List.reverse_append, ← trimLeft, trimLeft_append hreverse, List.reverse_append,
    List.reverse_reverse]
  rfl

/-- Lines without those before the first with more than spaces, and without the spaces that this
    one starts with. -/
def trimFirst (ls : List (List Char)) : List (List Char) :=
  (ls.dropWhile isSpaceText).modifyHead trimLeft

/-- Lines without those after the last with more than spaces, and without the spaces that this
    one ends with. -/
def trimLast (ls : List (List Char)) : List (List Char) :=
  ((ls.reverse.dropWhile isSpaceText).modifyHead (dropTrailing isSpace)).reverse

/-- The last line is dropped if it is of spaces alone, and otherwise loses those it ends with. -/
theorem trimLast_concat (ls : List (List Char)) (l : List Char) : trimLast (ls ++ [l]) =
    if isSpaceText l then trimLast ls else ls ++ [dropTrailing isSpace l] := by
  rw [trimLast, List.reverse_append, List.reverse_singleton, List.singleton_append,
    List.dropWhile_cons]
  split
  · rfl
  · rw [List.modifyHead_cons, List.reverse_cons, List.reverse_reverse]

/-- Trimming a text at its start trims its lines there. -/
theorem trimLeft_joinLines (ls : List (List Char)) :
    trimLeft (joinLines ls) = joinLines (trimFirst ls) := by
  induction ls with
  | nil => rfl
  | cons l ls ih =>
    rw [trimFirst, List.dropWhile_cons]
    cases hl : isSpaceText l with
    | true =>
      rw [if_pos rfl, ← trimFirst, ← ih]
      cases ls with
      | nil => exact List.dropWhile_eq_nil_iff.2 (List.all_eq_true.1 hl)
      | cons m ls =>
        have hfeed : isSpaceText (l ++ ['\n']) = true := by rw [isSpaceText_append, hl]; rfl
        rw [joinLines_cons_cons, List.append_cons, trimLeft_append_spaces hfeed]
    | false =>
      rw [if_neg (by simp), List.modifyHead_cons]
      cases ls with
      | nil => rfl
      | cons m ls => rw [joinLines_cons_cons, joinLines_cons_cons, trimLeft_append hl]

/-- Trimming a text at its end trims its lines there. -/
theorem dropTrailing_joinLines (ls : List (List Char)) :
    dropTrailing isSpace (joinLines ls) = joinLines (trimLast ls) := by
  induction ls using List.reverseRecOn with
  | nil => rfl
  | append_singleton ls l ih =>
    rw [trimLast_concat]
    cases hl : isSpaceText l with
    | true =>
      have hspaces := List.all_eq_true.1 hl
      rw [if_pos rfl, ← ih]
      by_cases hls : ls = []
      · rw [hls]
        exact dropTrailing_append_all [] hspaces
      · rw [joinLines_append hls (List.cons_ne_nil l [])]
        exact dropTrailing_append_all _ (List.forall_mem_cons.2 ⟨rfl, hspaces⟩)
    | false =>
      rw [if_neg (by simp)]
      by_cases hls : ls = []
      · rw [hls]
        rfl
      · have hjoin (k : List Char) := joinLines_append hls (List.cons_ne_nil k [])
        rw [hjoin, hjoin, List.append_cons, joinLines, dropTrailing_append_right hl,
          ← List.append_cons, joinLines]

/-- Trimming a text trims its first line and its last. -/
theorem trim_joinLines (ls : List (List Char)) :
    trim (joinLines ls) = joinLines (trimLast (trimFirst ls)) := by
  rw [trim, trimLeft_joinLines, dropTrailing_joinLines]

/-! ## Trimmed lines -/

/-- A text is of spaces alone if all its lines are. -/
theorem isSpaceText_joinLines (ls : List (List Char)) :
    isSpaceText (joinLines ls) = ls.all isSpaceText := by
  induction ls with
  | nil => rfl
  | cons l ls ih =>
    cases ls with
    | nil => simp [joinLines]
    | cons m ls =>
      have hfeed : isSpaceText ['\n'] = true := rfl
      rw [joinLines_cons_cons, List.append_cons, isSpaceText_append, isSpaceText_append, hfeed, ih,
        Bool.and_true, List.all_cons (a := l)]

/-- Of spaces alone nothing is left. -/
theorem trim_of_spaces {cs : List Char} (h : isSpaceText cs = true) : trim cs = [] := by
  have hnil : trimLeft cs = [] := List.dropWhile_eq_nil_iff.2 (List.all_eq_true.1 h)
  rw [trim, hnil]
  rfl

/-- A trimmed text does not start with a space. -/
theorem head?_trim {cs : List Char} {c : Char} (hc : c ∈ (trim cs).head?) : isSpace c = false := by
  obtain ⟨ds, hds⟩ := List.head?_eq_some_iff.1 hc
  have hsplit := dropTrailing_append_takeWhile isSpace (trimLeft cs)
  rw [← trim, hds] at hsplit
  have := List.head?_dropWhile_not isSpace cs
  rw [← trimLeft, ← hsplit] at this
  simpa using this

/-- What starts with something else than a space and ends so has no spaces to lose. -/
theorem trim_trim (cs : List Char) : trim (trim cs) = trim cs := by
  have hleft : trimLeft (trim cs) = trim cs := by
    cases hcs : trim cs with
    | nil => rfl
    | cons c ds => exact List.dropWhile_cons_of_neg (by simp [head?_trim (by rw [hcs]; rfl)])
  rw [trim, hleft]
  have hlast : ∀ c ∈ (trim cs).getLast?, isSpace c = false := fun c => getLast?_dropTrailing
  have hright := dropTrailing_append hlast (List.forall_mem_nil _)
  rwa [List.append_nil] at hright

/-- A line with more than spaces is not dropped with those after it. -/
theorem trimLast_cons {l : List Char} (h : isSpaceText l = false) (ls : List (List Char)) :
    ∃ m, isSpaceText m = false ∧ trimLast (l :: ls) = m :: trimLast ls := by
  induction ls using List.reverseRecOn with
  | nil =>
    refine ⟨dropTrailing isSpace l, (isSpaceText_dropTrailing l).trans h, ?_⟩
    rw [← List.nil_append [l], trimLast_concat, if_neg (by simp [h])]
    rfl
  | append_singleton ls k ih =>
    rw [← List.cons_append, trimLast_concat, trimLast_concat]
    split
    · exact ih
    · exact ⟨l, h, rfl⟩

/-- There is nothing left to be dropped behind the last line with more than spaces. -/
theorem dropTrailing_trimLast (ls : List (List Char)) :
    dropTrailing isSpaceText (trimLast ls) = trimLast ls := by
  induction ls using List.reverseRecOn with
  | nil => rfl
  | append_singleton ls k ih =>
    rw [trimLast_concat]
    split
    · exact ih
    · rename_i hk
      rw [dropTrailing_append_singleton, isSpaceText_dropTrailing, if_neg hk]

/-- Where only characters are taken off the first line, each line is a part of one that was
    there. -/
theorem subset_of_mem_modifyHead {f : List Char → List Char} (hf : ∀ l, f l ⊆ l)
    {ls : List (List Char)} {l : List Char} (h : l ∈ ls.modifyHead f) : ∃ k ∈ ls, l ⊆ k := by
  cases ls with
  | nil => simp at h
  | cons k ls =>
    rcases List.mem_cons.1 h with rfl | h
    · exact ⟨k, List.mem_cons_self, hf k⟩
    · exact ⟨l, List.mem_cons_of_mem k h, List.Subset.refl l⟩

/-- What is left of lines has no other characters. -/
theorem subset_of_mem_trim {ls : List (List Char)} {l : List Char}
    (h : l ∈ trimLast (trimFirst ls)) : ∃ k ∈ ls, l ⊆ k := by
  have hright (l : List Char) : dropTrailing isSpace l ⊆ l := fun c hc =>
    dropTrailing_append_takeWhile isSpace l ▸ List.mem_append_left _ hc
  have hleft (l : List Char) : trimLeft l ⊆ l := (List.dropWhile_suffix isSpace).subset
  obtain ⟨k, hk, hlk⟩ := subset_of_mem_modifyHead hright (List.mem_reverse.1 h)
  have hk := List.mem_reverse.1 ((List.dropWhile_suffix isSpaceText).subset hk)
  obtain ⟨n, hn, hkn⟩ := subset_of_mem_modifyHead hleft hk
  exact ⟨n, (List.dropWhile_suffix isSpaceText).subset hn, List.Subset.trans hlk hkn⟩

section Related

variable {R : List Char → List Char → Prop} {f g : List Char → List Char}
  {ls ms : List (List Char)}

/-- Lines that are related stay so if those with more than spaces are in the same places. -/
theorem forall₂_trimmed (hspace : ∀ l m, R l m → isSpaceText l = isSpaceText m)
    (hfg : ∀ l m, R l m → R (f l) (g m)) (h : List.Forall₂ R ls ms) :
    List.Forall₂ R ((ls.dropWhile isSpaceText).modifyHead f)
      ((ms.dropWhile isSpaceText).modifyHead g) := by
  induction h with
  | nil => exact .nil
  | @cons l m ls ms hlm hls ih =>
    rw [List.dropWhile_cons, List.dropWhile_cons, hspace l m hlm]
    split
    · exact ih
    · exact .cons (hfg l m hlm) hls

/-- Lines that correspond still do when the last ones are trimmed. -/
theorem forall₂_trimLast (hspace : ∀ l m, R l m → isSpaceText l = isSpaceText m)
    (hright : ∀ l m, R l m → R l (dropTrailing isSpace m)) (h : List.Forall₂ R ls ms) :
    List.Forall₂ R (dropTrailing isSpaceText ls) (trimLast ms) := by
  have hreverse := forall₂_trimmed (f := id) hspace hright (List.forall₂_reverse_iff.2 h)
  rw [List.modifyHead_id] at hreverse
  exact List.forall₂_reverse_iff.2 hreverse

/-- Lines that correspond still do when the first and the last are trimmed, if a line with more
    than spaces never corresponds to one without. -/
theorem forall₂_trim (hspace : ∀ l m, R l m → isSpaceText l = isSpaceText m)
    (hleft : ∀ l m, R l m → R (trimLeft l) (trimLeft m))
    (hright : ∀ l m, R l m → R (dropTrailing isSpace l) (dropTrailing isSpace m))
    (h : List.Forall₂ R ls ms) :
    List.Forall₂ R (trimLast (trimFirst ls)) (trimLast (trimFirst ms)) :=
  List.forall₂_reverse_iff.2 <| forall₂_trimmed hspace hright <|
    List.forall₂_reverse_iff.2 <| forall₂_trimmed hspace hleft h

end Related

/-! ## Indentation -/

/-- No line with more than spaces is indented by less than what all of them share. -/
theorem commonIndent_le {ls : List (List Char)} {l : List Char} (hl : l ∈ ls)
    (h : isSpaceText l = false) : commonIndent ls ≤ indentWidth l := by
  refine List.min?_getD_le_of_mem (List.mem_map_of_mem (List.mem_filter.2 ⟨hl, ?_⟩))
  simpa [isSpaceText] using h

/-- If a line holds more than spaces, the indentation in common is that of such a line. -/
theorem exists_commonIndent {ls : List (List Char)} (h : ∃ l ∈ ls, isSpaceText l = false) :
    ∃ l ∈ ls, isSpaceText l = false ∧ indentWidth l = commonIndent ls := by
  obtain ⟨l, hl, hspace⟩ := h
  have hne : (ls.filter fun l => !l.all isSpace).map indentWidth ≠ [] := by
    refine List.ne_nil_of_mem (List.mem_map_of_mem (List.mem_filter.2 ⟨hl, ?_⟩))
    simpa [isSpaceText] using hspace
  obtain ⟨w, hw⟩ := Option.isSome_iff_exists.1 (List.isSome_min?_iff.2 hne)
  obtain ⟨m, hm, rfl⟩ := List.mem_map.1 (List.min?_mem hw)
  obtain ⟨hmem, hmore⟩ := List.mem_filter.1 hm
  refine ⟨m, hmem, by simpa [isSpaceText] using hmore, ?_⟩
  rw [commonIndent, hw, Option.getD_some]

/-- Spaces at the end of a line are no part of its indentation. -/
theorem indentWidth_dropTrailing {l : List Char} (h : isSpaceText l = false) :
    indentWidth (dropTrailing isSpace l) = indentWidth l := by
  have hmore : ∃ c ∈ dropTrailing isSpace l, isIndent c = false := by
    obtain ⟨c, hc, hspace⟩ := List.all_eq_false.1 ((isSpaceText_dropTrailing l).trans h)
    refine ⟨c, hc, Bool.eq_false_iff.2 fun hi => hspace ?_⟩
    exact isSpace_of_isBlank (isBlank_of_isIndent hi)
  conv => rhs; rw [← dropTrailing_append_takeWhile isSpace l]
  rw [indentWidth, indentWidth, takeWhile_append_of_mem hmore]

/-- What is taken off the indentation of a line is missing there. -/
theorem indentWidth_drop {width : Nat} {l : List Char} (h : width ≤ indentWidth l) :
    indentWidth l = width + indentWidth (l.drop width) := by
  induction width generalizing l with
  | zero => rw [List.drop_zero, Nat.zero_add]
  | succ width ih =>
    cases l with
    | nil => simp [indentWidth] at h
    | cons c l =>
      rw [indentWidth, List.takeWhile_cons] at h ⊢
      split at h
      · rename_i hc
        rw [if_pos hc, List.length_cons, ← indentWidth, List.drop_succ_cons,
          ih (Nat.le_of_succ_le_succ h)]
        omega
      · simp at h

/-- Indentation is blank. -/
theorem isBlankText_take_indent {width : Nat} {l : List Char} (h : width ≤ indentWidth l) :
    isBlankText (l.take width) = true := by
  have htake : l.take width <+: l.takeWhile isIndent :=
    List.prefix_of_prefix_length_le (List.take_prefix _ _) (List.takeWhile_prefix _)
      (Nat.le_trans (List.length_take_le _ _) h)
  exact List.all_eq_true.2 fun c hc => isBlank_of_isIndent (mem_takeWhile (htake.subset hc))

theorem isSpaceText_take_indent {width : Nat} {l : List Char} (h : width ≤ indentWidth l) :
    isSpaceText (l.take width) = true := isSpaceText_of_isBlankText (isBlankText_take_indent h)

/-- A line stays blank, or not blank, when indentation is taken off. -/
theorem isBlankText_outdentLine (width : Nat) (l : List Char) :
    isBlankText (outdentLine width l) = isBlankText l := by
  rw [outdentLine]
  split
  · rename_i hw
    conv => rhs; rw [← List.take_append_drop width l]
    rw [isBlankText_append, isBlankText_take_indent hw, Bool.true_and]
  · rfl

/-- A line stays one of spaces alone, or of more, when indentation is taken off. -/
theorem isSpaceText_outdentLine (width : Nat) (l : List Char) :
    isSpaceText (outdentLine width l) = isSpaceText l := by
  rw [outdentLine]
  split
  · rename_i hw
    conv => rhs; rw [← List.take_append_drop width l]
    rw [isSpaceText_append, isSpaceText_take_indent hw, Bool.true_and]
  · rfl

/-- A line after the first loses its share of indentation, if it holds more than spaces. -/
def Outdented (width : Nat) (l m : List Char) : Prop :=
  isSpaceText l = isSpaceText m ∧ (isSpaceText l = false → indentWidth l = width + indentWidth m)

/-- Outdenting leaves the lines of spaces alone in their places. -/
theorem map_isSpaceText {width : Nat} {ls ms : List (List Char)}
    (h : List.Forall₂ (Outdented width) ls ms) : ms.map isSpaceText = ls.map isSpaceText := by
  induction h with
  | nil => rfl
  | cons hlm _ ih => rw [List.map_cons, List.map_cons, hlm.1, ih]

/-- Every line with more than spaces has its share of indentation to lose. -/
theorem outdented_outdentLine {ls : List (List Char)} {l : List Char} (hl : l ∈ ls) :
    Outdented (commonIndent ls) l (outdentLine (commonIndent ls) l) := by
  refine ⟨(isSpaceText_outdentLine _ l).symm, fun h => ?_⟩
  have hle := commonIndent_le hl h
  rw [outdentLine, if_pos hle, indentWidth_drop hle]

/-! ## Characters -/

/-- The characters of a text that are no spaces. -/
def inked (cs : List Char) : List Char := cs.filter (!isSpace ·)

theorem inked_append (as bs : List Char) : inked (as ++ bs) = inked as ++ inked bs :=
  List.filter_append as bs

/-- Without characters other than spaces a text is of spaces alone. -/
theorem inked_eq_nil_iff {cs : List Char} : inked cs = [] ↔ isSpaceText cs = true := by
  simp [inked, isSpaceText]

/-- Line feeds are spaces, so joining lines adds no other character. -/
theorem inked_joinLines (ls : List (List Char)) : inked (joinLines ls) = ls.flatMap inked := by
  induction ls with
  | nil => rfl
  | cons l ls ih =>
    cases ls with
    | nil => simp [joinLines]
    | cons m ls =>
      have hfeed : inked ['\n'] = [] := rfl
      rw [joinLines_cons_cons, List.append_cons, inked_append, inked_append, hfeed, ih,
        List.append_nil, List.flatMap_cons (x := l)]

/-- Indentation is of spaces, so outdenting a line takes off no other character. -/
theorem inked_outdentLine (width : Nat) (l : List Char) :
    inked (outdentLine width l) = inked l := by
  rw [outdentLine]
  split
  · rename_i hw
    conv => rhs; rw [← List.take_append_drop width l, inked_append,
      inked_eq_nil_iff.2 (isSpaceText_take_indent hw), List.nil_append]
  · rfl

/-- Trimming takes off spaces alone. -/
theorem inked_trim (cs : List Char) : inked (trim cs) = inked cs := by
  have hleft : isSpaceText (cs.takeWhile isSpace) = true :=
    List.all_eq_true.2 fun c hc => mem_takeWhile hc
  have hright : isSpaceText ((trimLeft cs).reverse.takeWhile isSpace).reverse = true :=
    List.all_eq_true.2 fun c hc => mem_takeWhile (List.mem_reverse.1 hc)
  calc inked (trim cs)
    _ = inked (trimLeft cs) := by
      conv => rhs; rw [← dropTrailing_append_takeWhile isSpace (trimLeft cs), inked_append,
        inked_eq_nil_iff.2 hright, List.append_nil]
      rfl
    _ = inked cs := by
      conv => rhs; rw [← List.takeWhile_append_dropWhile (p := isSpace) (l := cs), inked_append,
        inked_eq_nil_iff.2 hleft, List.nil_append]
      rfl

/-- Only spaces are taken off. -/
theorem inked_dedentChars (cs : List Char) : inked (dedentChars cs) = inked cs := by
  have hlines (width : Nat) : inked ∘ outdentLine width = inked :=
    funext (inked_outdentLine width)
  rw [dedentChars, inked_trim, inked_joinLines, List.flatMap_map, ← Function.comp_def, hlines,
    ← inked_joinLines, joinLines_splitLines]

/-! ## Dedented lines -/

/-- The lines of a text, without their common indentation. -/
def outdentedLines (cs : List Char) : List (List Char) :=
  (splitLines cs).map (outdentLine (commonIndent (splitLines cs)))

/-- Dedenting is line by line, but for the ends of the text. -/
theorem dedentChars_eq (cs : List Char) :
    dedentChars cs = joinLines (trimLast (trimFirst (outdentedLines cs))) := by
  rw [dedentChars, trim_joinLines, outdentedLines]

theorem not_mem_outdentedLines {cs l : List Char} (h : l ∈ outdentedLines cs) : '\n' ∉ l := by
  obtain ⟨k, hk, rfl⟩ := List.mem_map.1 h
  exact fun hl => (mem_of_mem_splitLines hk).1 ((outdentLine_suffix _ k).subset hl)

/-- A text with more than spaces has a line with more than spaces. -/
theorem exists_line_iff {cs : List Char} :
    isSpaceText cs = false ↔ ∃ l ∈ splitLines cs, isSpaceText l = false := by
  conv => lhs; rw [← joinLines_splitLines cs, isSpaceText_joinLines]
  simp [List.all_eq_false]

/-- Of a text of spaces nothing is left. -/
theorem dedentChars_of_spaces {cs : List Char} (h : isSpaceText cs = true) :
    dedentChars cs = [] := by
  refine trim_of_spaces ?_
  rw [← joinLines_splitLines cs, isSpaceText_joinLines] at h
  rw [isSpaceText_joinLines, List.all_map]
  refine h ▸ congrArg (List.all _) (funext fun l => ?_)
  exact isSpaceText_outdentLine _ l

/-- A text of spaces has no line with more than spaces. -/
theorem innerLines_of_spaces {cs : List Char} (h : isSpaceText cs = true) :
    innerLines cs = [] := by
  rw [← joinLines_splitLines cs, isSpaceText_joinLines] at h
  have hnil : (splitLines cs).dropWhile isSpaceText = [] :=
    List.dropWhile_eq_nil_iff.2 (List.all_eq_true.1 h)
  rw [innerLines, hnil]
  rfl

/-- The lines of a dedented text are the outdented ones, trimmed at both ends. -/
theorem splitLines_dedentChars {cs : List Char} (h : isSpaceText cs = false) :
    splitLines (dedentChars cs) = trimLast (trimFirst (outdentedLines cs)) := by
  rw [dedentChars_eq, splitLines_joinLines]
  · intro hnil
    have hinked := inked_dedentChars cs
    rw [dedentChars_eq, hnil] at hinked
    simp [inked_eq_nil_iff.1 hinked.symm] at h
  · intro l hl
    obtain ⟨k, hk, hlk⟩ := subset_of_mem_trim hl
    exact fun hfeed => not_mem_outdentedLines hk (hlk hfeed)

/-- The lines of a dedented text are the inner lines of the text, outdented but for the first. -/
theorem innerLines_dedentChars {cs : List Char} (h : isSpaceText cs = false) :
    ∃ l ls m ms, innerLines cs = l :: ls ∧ isSpaceText l = false ∧
      splitLines (dedentChars cs) = m :: ms ∧ innerLines (dedentChars cs) = m :: ms ∧
      isSpaceText m = false ∧ List.Forall₂ (Outdented (commonIndent (splitLines cs))) ls ms := by
  set width := commonIndent (splitLines cs) with hwidth
  obtain ⟨l, ls, hls⟩ : ∃ l ls, (splitLines cs).dropWhile isSpaceText = l :: ls := by
    obtain ⟨k, hk, hspace⟩ := exists_line_iff.1 h
    refine List.exists_cons_of_ne_nil fun hnil => ?_
    have := List.dropWhile_eq_nil_iff.1 hnil k hk
    simp [hspace] at this
  have hl : isSpaceText l = false := by
    have := List.head?_dropWhile_not isSpaceText (splitLines cs)
    simpa [hls] using this
  have hfirst : trimFirst (outdentedLines cs) =
      trimLeft (outdentLine width l) :: ls.map (outdentLine width) := by
    rw [trimFirst, outdentedLines, List.dropWhile_map,
      show isSpaceText ∘ outdentLine width = isSpaceText from
        funext (isSpaceText_outdentLine width), hls]
    rfl
  have hl' : isSpaceText (trimLeft (outdentLine width l)) = false := by
    rw [isSpaceText_trimLeft, isSpaceText_outdentLine, hl]
  obtain ⟨m, hm, htrim⟩ := trimLast_cons hl' (ls.map (outdentLine width))
  have hmem : ∀ k ∈ ls, k ∈ splitLines cs := fun k hk =>
    (List.dropWhile_suffix isSpaceText).subset (hls ▸ List.mem_cons_of_mem l hk)
  have hsplit : splitLines (dedentChars cs) = m :: trimLast (ls.map (outdentLine width)) := by
    rw [splitLines_dedentChars h, hfirst, htrim]
  refine ⟨l, dropTrailing isSpaceText ls, m, trimLast (ls.map (outdentLine width)), ?_, hl, hsplit,
    ?_, hm, ?_⟩
  · rw [innerLines, hls, dropTrailing_cons hl]
  · rw [innerLines, hsplit, List.dropWhile_cons_of_neg (by simp [hm]), dropTrailing_cons hm,
      dropTrailing_trimLast]
  · refine forall₂_trimLast (fun _ _ h => h.1) (fun k k' hk => ?_) ?_
    · refine ⟨hk.1.trans (isSpaceText_dropTrailing k').symm, fun hspace => ?_⟩
      rw [indentWidth_dropTrailing (hk.1 ▸ hspace), hk.2 hspace]
    · refine List.forall₂_map_right_iff.2 (List.forall₂_same.2 fun k hk => ?_)
      exact outdented_outdentLine (hmem k hk)

/-! ## Dedenting twice -/

theorem outdentLine_zero (l : List Char) : outdentLine 0 l = l := by
  rw [outdentLine, if_pos (Nat.zero_le _), List.drop_zero]

/-- A dedented text starts with something else than a space, so its lines share no indentation. -/
theorem dedentChars_dedentChars (cs : List Char) :
    dedentChars (dedentChars cs) = dedentChars cs := by
  cases h : isSpaceText cs with
  | true =>
    rw [dedentChars_of_spaces h]
    rfl
  | false =>
    have htrim : trim (dedentChars cs) = dedentChars cs := by rw [dedentChars, trim_trim]
    obtain ⟨-, -, m, ms, -, -, hsplit, -, hm, -⟩ := innerLines_dedentChars h
    have hjoin := joinLines_splitLines (dedentChars cs)
    -- The first line starts as the text does.
    have hindent : indentWidth m = 0 := by
      cases m with
      | nil => simp [isSpaceText] at hm
      | cons c m =>
        have hhead : (dedentChars cs).head? = some c := by
          rw [← hjoin, hsplit]
          cases ms <;> rfl
        have hspace : isSpace c = false := head?_trim (htrim ▸ hhead)
        rw [indentWidth, List.takeWhile_cons_of_neg, List.length_nil]
        exact fun hc => by simp [isSpace_of_isBlank (isBlank_of_isIndent hc)] at hspace
    have hcommon : commonIndent (splitLines (dedentChars cs)) = 0 := by
      have hle := commonIndent_le (hsplit ▸ List.mem_cons_self) hm
      omega
    rw [dedentChars, hcommon, List.map_congr_left fun l _ => outdentLine_zero l, List.map_id',
      hjoin, htrim]

/-! ## More indentation -/

/-- A line behind `k` spaces. -/
def padLine (k : Nat) (l : List Char) : List Char := List.replicate k ' ' ++ l

/-- A line stays one of spaces alone, or of more, behind further spaces. -/
theorem isSpaceText_padLine (k : Nat) (l : List Char) :
    isSpaceText (padLine k l) = isSpaceText l := by
  have hspaces : isSpaceText (List.replicate k ' ') = true :=
    List.all_eq_true.2 fun c hc => by rw [List.eq_of_mem_replicate hc]; rfl
  rw [padLine, isSpaceText_append, hspaces, Bool.true_and]

/-- Further spaces before a line are further indentation. -/
theorem indentWidth_padLine (k : Nat) (l : List Char) :
    indentWidth (padLine k l) = k + indentWidth l := by
  rw [padLine, indentWidth, List.takeWhile_append_of_pos, List.length_append, List.length_replicate,
    indentWidth]
  exact fun c hc => by rw [List.eq_of_mem_replicate hc]; rfl

/-- The indentation in common grows by the spaces before all lines. -/
theorem commonIndent_padLine (k : Nat) {ls : List (List Char)}
    (h : ∃ l ∈ ls, isSpaceText l = false) :
    commonIndent (ls.map (padLine k)) = k + commonIndent ls := by
  obtain ⟨l, hl, hspace, hwidth⟩ := exists_commonIndent h
  have hle : commonIndent (ls.map (padLine k)) ≤ k + commonIndent ls := by
    rw [← hwidth, ← indentWidth_padLine]
    exact commonIndent_le (List.mem_map_of_mem hl) ((isSpaceText_padLine k l).trans hspace)
  have hpadded : ∃ m ∈ ls.map (padLine k), isSpaceText m = false :=
    ⟨_, List.mem_map_of_mem hl, (isSpaceText_padLine k l).trans hspace⟩
  obtain ⟨m, hm, hspace', hwidth'⟩ := exists_commonIndent hpadded
  obtain ⟨n, hn, rfl⟩ := List.mem_map.1 hm
  have hge := commonIndent_le hn ((isSpaceText_padLine k n).symm.trans hspace')
  rw [indentWidth_padLine] at hwidth'
  omega

/-- Two lines are the same, unless they are of spaces alone. -/
def SameLine (l m : List Char) : Prop := m = l ∨ isSpaceText l = true ∧ isSpaceText m = true

theorem SameLine.isSpaceText_eq {l m : List Char} (h : SameLine l m) :
    isSpaceText l = isSpaceText m := by
  rcases h with rfl | ⟨hl, hm⟩
  · rfl
  · rw [hl, hm]

/-- Lines that are the same but for spaces stay so under what keeps such lines apart from others. -/
theorem SameLine.map {l m : List Char} (h : SameLine l m) {f : List Char → List Char}
    (hf : ∀ l, isSpaceText (f l) = isSpaceText l) : SameLine (f l) (f m) := by
  rcases h with rfl | ⟨hl, hm⟩
  · exact .inl rfl
  · exact .inr ⟨(hf l).trans hl, (hf m).trans hm⟩

/-- Further indentation is taken off again by outdenting, as all lines share it. -/
theorem sameLine_outdentLine (k : Nat) {ls : List (List Char)} {l : List Char} (hl : l ∈ ls) :
    SameLine (outdentLine (commonIndent ls) l)
      (outdentLine (k + commonIndent ls) (padLine k l)) := by
  cases hspace : isSpaceText l with
  | true =>
    refine .inr ⟨(isSpaceText_outdentLine _ l).trans hspace, ?_⟩
    rw [isSpaceText_outdentLine, isSpaceText_padLine, hspace]
  | false =>
    have hle := commonIndent_le hl hspace
    refine .inl ?_
    rw [outdentLine, outdentLine, indentWidth_padLine, if_pos hle,
      if_pos (Nat.add_le_add_left hle k), padLine, ← List.drop_drop,
      List.drop_left' (List.length_replicate)]

/-- More indentation before all lines makes a difference for lines of spaces alone. -/
theorem dedentChars_padLine (k : Nat) (cs : List Char) :
    List.Forall₂ SameLine (splitLines (dedentChars cs))
      (splitLines (dedentChars (joinLines ((splitLines cs).map (padLine k))))) := by
  have hfeed : '\n' ∉ List.replicate k ' ' := fun h => by simp at h
  have hsplit : splitLines (joinLines ((splitLines cs).map (padLine k))) =
      (splitLines cs).map (padLine k) := by
    refine splitLines_joinLines (by simp [splitLines_ne_nil]) (List.forall_mem_map.2 fun l hl => ?_)
    rw [padLine, List.mem_append, not_or]
    exact ⟨hfeed, (mem_of_mem_splitLines hl).1⟩
  have hpadded : isSpaceText (joinLines ((splitLines cs).map (padLine k))) = isSpaceText cs := by
    conv => rhs; rw [← joinLines_splitLines cs]
    rw [isSpaceText_joinLines, isSpaceText_joinLines, List.all_map]
    exact congrArg (List.all _) (funext (isSpaceText_padLine k))
  cases h : isSpaceText cs with
  | true =>
    rw [dedentChars_of_spaces h, dedentChars_of_spaces (hpadded.trans h)]
    exact .cons (.inl rfl) .nil
  | false =>
    rw [splitLines_dedentChars h, splitLines_dedentChars (hpadded.trans h), outdentedLines,
      outdentedLines, hsplit, commonIndent_padLine k (exists_line_iff.1 h), List.map_map]
    refine forall₂_trim (fun _ _ => SameLine.isSpaceText_eq)
      (fun _ _ hl => hl.map isSpaceText_trimLeft) (fun _ _ hl => hl.map isSpaceText_dropTrailing) ?_
    refine List.forall₂_map_left_iff.2 (List.forall₂_map_right_iff.2 (List.forall₂_same.2 ?_))
    exact fun l hl => sameLine_outdentLine k hl

/-! ## Texts -/

/-- A text with `k` spaces before every line. -/
def padText (k : Nat) (text : String) : String :=
  reword (fun cs => joinLines ((splitLines cs).map (padLine k))) text

/-- Dedenting takes indentation off, and nothing else. The characters that are no spaces stay,
    dedenting once more changes nothing, and from the first to the last line with more than spaces
    all lines stay, those of spaces alone in their places. Of two lines with more than spaces
    after the first one, the difference in indentation stays. If all lines are indented by `k` more
    spaces, only lines of spaces alone come out differently. -/
theorem dedent_lines (text : String) :
    inked (dedent text).toList = inked text.toList ∧
    dedent (dedent text) = dedent text ∧
    (innerLines (dedent text).toList).map isSpaceText = (innerLines text.toList).map isSpaceText ∧
    (∀ e ∈ (innerLines text.toList).tail.zip (innerLines (dedent text).toList).tail,
      ∀ e' ∈ (innerLines text.toList).tail.zip (innerLines (dedent text).toList).tail,
        isSpaceText e.1 = false → isSpaceText e'.1 = false →
          (indentWidth e.2 : Int) - indentWidth e'.2 = indentWidth e.1 - indentWidth e'.1) ∧
    ∀ k, List.Forall₂ SameLine (splitLines (dedent text).toList)
      (splitLines (dedent (padText k text)).toList) := by
  have htoList (text : String) : (dedent text).toList = dedentChars text.toList :=
    String.toList_ofList
  rw [htoList]
  refine ⟨inked_dedentChars _, ?_, ?_, ?_, fun k => ?_⟩
  · rw [dedent, htoList, dedentChars_dedentChars, dedent]
  · cases h : isSpaceText text.toList with
    | true =>
      rw [dedentChars_of_spaces h, innerLines_of_spaces h]
      rfl
    | false =>
      obtain ⟨l, ls, m, ms, hinner, hl, -, hinner', hm, hlines⟩ := innerLines_dedentChars h
      rw [hinner, hinner', List.map_cons, List.map_cons, hl, hm]
      rw [map_isSpaceText hlines]
  · intro e he e' he' hspace hspace'
    cases h : isSpaceText text.toList with
    | true => simp [innerLines_of_spaces h] at he
    | false =>
      obtain ⟨l, ls, m, ms, hinner, -, -, hinner', -, hlines⟩ := innerLines_dedentChars h
      rw [hinner, hinner', List.tail_cons, List.tail_cons] at he he'
      have hwidth := ((List.forall₂_iff_zip.1 hlines).2 he).2 hspace
      have hwidth' := ((List.forall₂_iff_zip.1 hlines).2 he').2 hspace'
      omega
  · rw [htoList, padText, reword, String.toList_ofList]
    exact dedentChars_padLine k _

/-- With a tab, a line of spaces alone, one that is not common, and a carriage return. -/
theorem dedent_lines_tabs :
    let text := "\n   a\n\t  b \r\n\u00a0\n     c\n "
    let lines := (innerLines text.toList).tail.zip (innerLines (dedent text).toList).tail
    ∃ e ∈ lines, ∃ e' ∈ lines, e.1 = "\t  b \r".toList ∧ e'.1 = "     c".toList ∧
      (indentWidth e.2 : Int) - indentWidth e'.2 = indentWidth e.1 - indentWidth e'.1 := by
  intro text lines
  have he : ("\t  b \r".toList, "b \r".toList) ∈ lines := by decide +kernel
  have he' : ("     c".toList, "  c".toList) ∈ lines := by decide +kernel
  obtain ⟨-, -, -, hwidth, -⟩ := dedent_lines text
  exact ⟨_, he, _, he', rfl, rfl, hwidth _ he _ he' (by decide +kernel) (by decide +kernel)⟩

end SlotMarkup
