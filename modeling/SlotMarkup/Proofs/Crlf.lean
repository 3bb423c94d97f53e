import SlotMarkup.Proofs.DedentMeasure
import SlotMarkup.Proofs.ReaderRewording

/-!
# Carriage returns before line feeds

A text may be written with a carriage return before every line feed (`crlf`). Both
characters are spaces, so the spaces around a text are the same with and without them
(`dropWhile_crlf`, `dropTrailing_crlf`), and a line that ends with a carriage return is
indented as before. So such a text is dedented as the text without carriage returns is
(`dedentChars_crlf`), and the tokens of slots, which have no line breaks, are written in
the same places (`encodeFrom_crlf`).
-/

namespace SlotMarkup

/-- A text with a carriage return before every line feed. -/
def crlf (cs : List Char) : List Char := cs.flatMap fun c => if c = '\n' then ['\r', '\n'] else [c]

/-! ## Characters -/

@[simp] theorem crlf_nil : crlf [] = [] := rfl

theorem crlf_newline (cs : List Char) : crlf ('\n' :: cs) = '\r' :: '\n' :: crlf cs := rfl

theorem crlf_cons {c : Char} (h : c ≠ '\n') (cs : List Char) : crlf (c :: cs) = c :: crlf cs := by
  rw [crlf, List.flatMap_cons, if_neg h]
  rfl

/-- The line breaks of a text are changed part by part. -/
theorem crlf_append (cs ds : List Char) : crlf (cs ++ ds) = crlf cs ++ crlf ds :=
  List.flatMap_append

/-- Without line feeds there is nothing to change. -/
theorem crlf_of_not_mem {cs : List Char} (h : '\n' ∉ cs) : crlf cs = cs := by
  induction cs with
  | nil => rfl
  | cons c cs ih =>
    rw [List.mem_cons, not_or] at h
    rw [crlf_cons (Ne.symm h.1), ih h.2]

/-- Up to the first line feed nothing is put in. -/
theorem splitAt_crlf {cs : List Char} {n : Nat} (h : '\n' ∉ cs.take n) :
    (crlf cs).take n = cs.take n ∧ (crlf cs).drop n = crlf (cs.drop n) := by
  induction n generalizing cs with
  | zero => exact ⟨rfl, rfl⟩
  | succ n ih =>
    cases cs with
    | nil => exact ⟨rfl, rfl⟩
    | cons c cs =>
      rw [List.take_succ_cons, List.mem_cons, not_or] at h
      rw [crlf_cons (Ne.symm h.1), List.take_succ_cons, List.take_succ_cons, (ih h.2).1]
      exact ⟨rfl, (ih h.2).2⟩

theorem crlf_eq_nil_iff {cs : List Char} : crlf cs = [] ↔ cs = [] := by
  cases cs with
  | nil => simp
  | cons c cs => by_cases h : c = '\n' <;> simp [crlf, h]

/-- A text with carriage returns starts as before, unless it starts with a line break. -/
theorem head?_crlf {c : Char} (hn : c ≠ '\n') (hr : c ≠ '\r') (cs : List Char) :
    (crlf cs).head? = some c ↔ cs.head? = some c := by
  cases cs with
  | nil => rfl
  | cons d cs =>
    by_cases hd : d = '\n'
    · rw [hd, crlf_newline]
      simp [Ne.symm hn, Ne.symm hr]
    · rw [crlf_cons hd]
      simp

/-- No line feed comes without the carriage return before it. -/
theorem crlf_ne_newline (cs ds : List Char) : crlf cs ≠ '\n' :: ds := by
  cases cs with
  | nil => simp
  | cons c cs =>
    by_cases h : c = '\n'
    · rw [h, crlf_newline]
      simp
    · rw [crlf_cons h]
      simp [h]

/-- So the text can be told from it. -/
theorem crlf_injective {cs ds : List Char} (h : crlf cs = crlf ds) : cs = ds := by
  induction cs generalizing ds with
  | nil => exact (crlf_eq_nil_iff.1 h.symm).symm
  | cons c cs ih =>
    cases ds with
    | nil => exact crlf_eq_nil_iff.1 h
    | cons d ds =>
      by_cases hc : c = '\n' <;> by_cases hd : d = '\n'
      · subst hc hd
        rw [crlf_newline, crlf_newline, List.cons.injEq, List.cons.injEq] at h
        rw [ih h.2.2]
      · rw [hc, crlf_newline, crlf_cons hd, List.cons.injEq] at h
        exact absurd h.2.symm (crlf_ne_newline ds _)
      · rw [hd, crlf_newline, crlf_cons hc, List.cons.injEq] at h
        exact absurd h.2 (crlf_ne_newline cs _)
      · rw [crlf_cons hc, crlf_cons hd, List.cons.injEq] at h
        rw [h.1, ih h.2]

/-- What a text with carriage returns starts with is read off the text, if it is no line
    break. -/
theorem of_crlf_cons {c : Char} (hn : c ≠ '\n') (hr : c ≠ '\r') {cs ds : List Char}
    (h : crlf cs = c :: ds) : ∃ es, cs = c :: es ∧ ds = crlf es := by
  have hhead : cs.head? = some c := (head?_crlf hn hr cs).1 (by rw [h]; rfl)
  obtain ⟨es, rfl⟩ := List.head?_eq_some_iff.1 hhead
  rw [crlf_cons hn] at h
  exact ⟨es, rfl, (List.cons.inj h).2.symm⟩

/-- A text ends as before, as a line break still ends with a line feed. -/
@[simp] theorem getLast?_crlf (cs : List Char) : (crlf cs).getLast? = cs.getLast? := by
  rcases List.eq_nil_or_concat cs with rfl | ⟨ds, c, rfl⟩
  · rfl
  · rw [List.concat_eq_append, crlf_append, List.getLast?_concat]
    by_cases hc : c = '\n'
    · rw [hc, crlf_newline, crlf_nil, List.append_cons, List.getLast?_concat]
    · rw [crlf_cons hc, crlf_nil, List.getLast?_concat]

/-- A text without its carriage returns. -/
def dropReturns (cs : List Char) : List Char := cs.filter (· != '\r')

/-- A text with carriage returns is the text again without them. -/
theorem dropReturns_crlf (cs : List Char) : dropReturns (crlf cs) = dropReturns cs := by
  induction cs with
  | nil => rfl
  | cons c cs ih =>
    by_cases hc : c = '\n'
    · rw [hc, crlf_newline]
      exact congrArg ('\n' :: ·) ih
    · rw [crlf_cons hc, dropReturns, List.filter_cons, dropReturns, List.filter_cons]
      rw [dropReturns, dropReturns] at ih
      rw [ih]

section Runs

variable {f : Char → Bool}

/-- A run is dropped before line breaks are changed or after, if it takes both of their characters
    or none. -/
theorem dropWhile_crlf (h : f '\r' = f '\n') (cs : List Char) :
    (crlf cs).dropWhile f = crlf (cs.dropWhile f) := by
  induction cs with
  | nil => rfl
  | cons c cs ih =>
    by_cases hc : c = '\n'
    · subst hc
      rw [crlf_newline, List.dropWhile_cons, List.dropWhile_cons, List.dropWhile_cons, h, ih]
      split <;> rfl
    · rw [crlf_cons hc, List.dropWhile_cons, List.dropWhile_cons, ih]
      split
      · rfl
      · exact (crlf_cons hc cs).symm

/-- A run at the end is dropped before line breaks are changed or after, if it takes both of their
    characters or none. -/
theorem dropTrailing_crlf (h : f '\r' = f '\n') (cs : List Char) :
    dropTrailing f (crlf cs) = crlf (dropTrailing f cs) := by
  -- From the last character backwards.
  induction hcs : cs.reverse generalizing cs with
  | nil =>
    rw [List.reverse_eq_nil_iff] at hcs
    rw [hcs]
    rfl
  | cons c ds ih =>
    have hds : cs = ds.reverse ++ [c] := by rw [← List.reverse_cons, ← hcs, List.reverse_reverse]
    have ih := ih ds.reverse (List.reverse_reverse ds)
    rw [hds, crlf_append, dropTrailing_append_singleton]
    by_cases hc : c = '\n'
    · subst hc
      rw [crlf_newline, crlf_nil, List.append_cons, dropTrailing_append_singleton,
        dropTrailing_append_singleton, h, ih]
      split
      · rfl
      · rw [crlf_append, crlf_newline, crlf_nil, List.append_assoc]
        simp
    · rw [crlf_cons hc, crlf_nil, dropTrailing_append_singleton, ih]
      split
      · rfl
      · rw [crlf_append, crlf_cons hc, crlf_nil]

/-- A run that a line break ends has no line feed. -/
theorem takeWhile_crlf (hr : f '\r' = false) (hn : f '\n' = false) (cs : List Char) :
    (crlf cs).takeWhile f = cs.takeWhile f := by
  induction cs with
  | nil => rfl
  | cons c cs ih =>
    by_cases hc : c = '\n'
    · subst hc
      rw [crlf_newline, List.takeWhile_cons_of_neg (by simp [hr]),
        List.takeWhile_cons_of_neg (by simp [hn])]
    · rw [crlf_cons hc, List.takeWhile_cons, List.takeWhile_cons, ih]

end Runs

/-! ## Lines -/

/-- Lines, each of them but the last with a carriage return at its end. -/
def withReturns : List (List Char) → List (List Char)
  | [] => []
  | [l] => [l]
  | l :: m :: ls => (l ++ ['\r']) :: withReturns (m :: ls)

theorem withReturns_modifyHead (c : Char) (ls : List (List Char)) :
    withReturns (ls.modifyHead (c :: ·)) = (withReturns ls).modifyHead (c :: ·) := by
  match ls with
  | [] | [l] => rfl
  | l :: m :: ls => rfl

theorem withReturns_cons (l : List Char) {ls : List (List Char)} (h : ls ≠ []) :
    withReturns (l :: ls) = (l ++ ['\r']) :: withReturns ls := by
  cases ls with
  | nil => exact absurd rfl h
  | cons m ls => rfl

/-- Each line but the last comes to end with a return. -/
theorem splitLines_crlf (cs : List Char) : splitLines (crlf cs) = withReturns (splitLines cs) := by
  induction cs with
  | nil => rfl
  | cons c cs ih =>
    by_cases hc : c = '\n'
    · subst hc
      rw [crlf_newline, splitLines_cons, splitLines_cons, splitLines_cons, if_neg (by decide),
        if_pos rfl, if_pos rfl, ih, withReturns_cons _ (splitLines_ne_nil cs)]
      rfl
    · rw [crlf_cons hc, splitLines_cons, splitLines_cons, if_neg hc, if_neg hc, ih,
        withReturns_modifyHead]

/-- Lines with returns are joined to the text with the other line breaks. -/
theorem joinLines_withReturns {ls : List (List Char)} (h : ∀ l ∈ ls, '\n' ∉ l) :
    joinLines (withReturns ls) = crlf (joinLines ls) := by
  fun_induction withReturns ls with
  | case1 => rfl
  | case2 l => exact (crlf_of_not_mem (h l List.mem_cons_self)).symm
  | case3 l m ls ih =>
    have hne : withReturns (m :: ls) ≠ [] := by cases ls <;> simp [withReturns]
    obtain ⟨n, ns, hns⟩ := List.exists_cons_of_ne_nil hne
    rw [joinLines_cons_cons, crlf_append, crlf_newline, crlf_of_not_mem (h l List.mem_cons_self),
      ← ih fun k hk => h k (List.mem_cons_of_mem _ hk), hns, joinLines_cons_cons, List.append_assoc]
    rfl

/-- What makes no difference between a line and the line with a carriage return makes none
    between lines and those with carriage returns. -/
theorem map_withReturns {g : List Char → List Char} (h : ∀ l, g (l ++ ['\r']) = g l ++ ['\r'])
    (ls : List (List Char)) : (withReturns ls).map g = withReturns (ls.map g) := by
  fun_induction withReturns ls with
  | case1 | case2 => rfl
  | case3 l m ls ih => rw [List.map_cons, h, ih]; rfl

theorem isSpace_return : isSpace '\r' = isSpace '\n' := rfl

/-- A return is no indentation. -/
theorem indentWidth_return (l : List Char) : indentWidth (l ++ ['\r']) = indentWidth l := by
  rw [indentWidth, indentWidth, List.takeWhile_append]
  split
  · rename_i hall
    rw [List.length_append, hall]
    rfl
  · rfl

/-- With returns at their ends lines share as much indentation. -/
theorem commonIndent_withReturns (ls : List (List Char)) :
    commonIndent (withReturns ls) = commonIndent ls := by
  have hwidths : ((withReturns ls).filter fun l => !l.all isSpace).map indentWidth =
      (ls.filter fun l => !l.all isSpace).map indentWidth := by
    fun_induction withReturns ls with
    | case1 | case2 => rfl
    | case3 l m ls ih =>
      have hblank : (l ++ ['\r']).all isSpace = l.all isSpace := by
        rw [List.all_append]
        exact Bool.and_true _
      rw [List.filter_cons, List.filter_cons, hblank]
      split
      · rw [List.map_cons, List.map_cons, indentWidth_return, ih]
      · exact ih
  rw [commonIndent, commonIndent, hwidths]

/-- A return stays at the end of its line when that is outdented. -/
theorem outdentLine_return (width : Nat) (l : List Char) :
    outdentLine width (l ++ ['\r']) = outdentLine width l ++ ['\r'] := by
  rw [outdentLine, outdentLine, indentWidth_return]
  split
  · rename_i hw
    exact List.drop_append_of_le_length (Nat.le_trans hw (List.takeWhile_prefix _).length_le)
  · rfl

/-- A line has no line feed, and no character that is not in the text. -/
theorem mem_of_mem_splitLines {cs l : List Char} (h : l ∈ splitLines cs) :
    '\n' ∉ l ∧ ∀ c ∈ l, c ∈ cs := by
  induction cs generalizing l with
  | nil =>
    rw [splitLines_nil, List.mem_singleton] at h
    simp [h]
  | cons c cs ih =>
    rw [splitLines_cons] at h
    split at h
    · rcases List.mem_cons.1 h with rfl | h
      · simp
      · exact ⟨(ih h).1, fun d hd => List.mem_cons_of_mem _ ((ih h).2 d hd)⟩
    · rename_i hc
      obtain ⟨m, ms, hms⟩ := List.exists_cons_of_ne_nil (splitLines_ne_nil cs)
      rw [hms] at h ih
      rcases List.mem_cons.1 h with rfl | h
      · have hm := ih List.mem_cons_self
        refine ⟨?_, ?_⟩
        · rw [List.mem_cons, not_or]
          exact ⟨Ne.symm hc, hm.1⟩
        · rw [List.forall_mem_cons]
          exact ⟨List.mem_cons_self, fun d hd => List.mem_cons_of_mem _ (hm.2 d hd)⟩
      · have hl := ih (List.mem_cons_of_mem _ h)
        exact ⟨hl.1, fun d hd => List.mem_cons_of_mem _ (hl.2 d hd)⟩

/-! ## Templates -/

/-- A text with carriage returns is dedented as the text is. -/
theorem dedentChars_crlf (cs : List Char) : dedentChars (crlf cs) = crlf (dedentChars cs) := by
  have hlines : ∀ l ∈ (splitLines cs).map (outdentLine (commonIndent (splitLines cs))),
      '\n' ∉ l := by
    intro l hl hn
    obtain ⟨m, hm, rfl⟩ := List.mem_map.1 hl
    exact (mem_of_mem_splitLines hm).1 ((outdentLine_suffix _ m).subset hn)
  rw [dedentChars, dedentChars, splitLines_crlf, commonIndent_withReturns,
    map_withReturns (outdentLine_return _), joinLines_withReturns hlines, trim, trim, trimLeft,
    trimLeft, dropWhile_crlf isSpace_return, dropTrailing_crlf isSpace_return]

/-- Dedenting adds no carriage returns. -/
theorem not_mem_dedentChars {cs : List Char} (h : '\r' ∉ cs) : '\r' ∉ dedentChars cs := by
  have hjoin (ls : List (List Char)) (hls : ∀ l ∈ ls, '\r' ∉ l) : '\r' ∉ joinLines ls := by
    induction ls with
    | nil => simp [joinLines]
    | cons l ls ih =>
      rw [List.forall_mem_cons] at hls
      cases ls with
      | nil => exact hls.1
      | cons m ls =>
        rw [joinLines_cons_cons, List.mem_append, List.mem_cons, not_or, not_or]
        exact ⟨hls.1, by decide, ih hls.2⟩
  intro hr
  have htrailing := dropTrailing_append_takeWhile isSpace (trimLeft (joinLines
    ((splitLines cs).map (outdentLine (commonIndent (splitLines cs))))))
  refine hjoin _ (fun l hl hm => ?_) ((List.dropWhile_suffix isSpace).subset
    (htrailing ▸ List.mem_append_left _ hr))
  obtain ⟨m, hm', rfl⟩ := List.mem_map.1 hl
  exact h ((mem_of_mem_splitLines hm').2 _ ((outdentLine_suffix _ m).subset hm))

namespace Slots

variable (s : Slots)

/-- No token has a line break in it. -/
theorem not_mem_token (index : Nat) : '\n' ∉ s.token index ∧ '\r' ∉ s.token index :=
  ⟨fun h => absurd (allWord_token index _ h) (by decide),
    fun h => absurd (allWord_token index _ h) (by decide)⟩

/-- Tokens are written between the fragments with carriage returns as between the
    fragments. -/
theorem encodeFrom_crlf (index : Nat) (fragments : List String) :
    s.encodeFrom index (fragments.map (reword crlf)) = crlf (s.encodeFrom index fragments) := by
  fun_induction encodeFrom s index fragments with
  | case1 => rfl
  | case2 index f => exact String.toList_ofList
  | case3 index f g fs ih =>
    rw [List.map_cons] at ih
    rw [List.map_cons, List.map_cons, encodeFrom, ih, crlf_append, crlf_append,
      crlf_of_not_mem (s.not_mem_token index).1]
    exact congrArg (· ++ _) String.toList_ofList

/-- Tokens between fragments add no returns. -/
theorem not_mem_encodeFrom {fragments : List String} (h : ∀ f ∈ fragments, '\r' ∉ f.toList)
    (index : Nat) : '\r' ∉ s.encodeFrom index fragments := by
  fun_induction encodeFrom s index fragments with
  | case1 => simp
  | case2 index f => exact h f List.mem_cons_self
  | case3 index f g fs ih =>
    rw [List.forall_mem_cons] at h
    rw [List.mem_append, List.mem_append, not_or, not_or]
    exact ⟨h.1, (s.not_mem_token index).2, ih h.2⟩

end Slots

end SlotMarkup
