import SlotMarkup.Proofs.ReaderBreaks
import SlotMarkup.Text.Dedent

/-!
# Rewording a text

A `Rewording` puts words in the place of the words of a text, and leaves all
else as it is. It goes along with every way of taking a text apart that ends at
a word break: at the run of a uniform class (`takeWhile`, `dropWhile`), before
the trailing characters that are in no word (`dropTrailing`), and at the line
feeds (`splitLines`).

* `of_cons`: what is in no word was there before;
* `dedentChars`: a text is dedented as it would be in other words.
-/

namespace SlotMarkup

/-- Puts words in the place of words, and leaves all else as it is. -/
structure Rewording (σ : List Char → List Char) : Prop where
  append : ∀ {as bs}, WordBreak as bs → σ (as ++ bs) = σ as ++ σ bs
  single : ∀ {c}, isWord c = false → σ [c] = [c]
  word : ∀ {w}, AllWord w → w ≠ [] → AllWord (σ w) ∧ σ w ≠ []

/-- A class that does not tell words apart says the same of all their characters. -/
theorem Uniform.eq_of_isWord {f : Char → Bool} (hf : Uniform f) {c : Char}
    (hc : isWord c = true) : f c = f 'a' := hf c 'a' hc rfl

/-- Whether a text can be parted depends on the first character behind the place. -/
theorem wordBreak_of_head?_eq {as bs cs : List Char} (h : WordBreak as bs)
    (hc : ∀ c ∈ cs.head?, c ∈ bs.head?) : WordBreak as cs :=
  fun a ha c hm => h a ha c (hc c hm)

theorem mem_head?_takeWhile {α : Type} {f : α → Bool} {l : List α} {a : α}
    (h : a ∈ (l.takeWhile f).head?) : a ∈ l.head? := by
  cases l with
  | nil => simp at h
  | cons b l =>
    rw [List.takeWhile_cons] at h
    split at h
    · exact h
    · simp at h

theorem mem_head?_take {α : Type} {n : Nat} {l : List α} {a : α} (h : a ∈ (l.take n).head?) :
    a ∈ l.head? := by
  cases l with
  | nil => simp at h
  | cons b l => cases n with
    | zero => simp at h
    | succ n => exact h

/-- All that is to be dropped at the end is dropped, and nothing before it. -/
theorem dropTrailing_append {α : Type} {f : α → Bool} {as bs : List α}
    (ha : ∀ a ∈ as.getLast?, f a = false) (hb : ∀ b ∈ bs, f b = true) :
    dropTrailing f (as ++ bs) = as := by
  rw [dropTrailing, List.reverse_append,
    List.dropWhile_append_of_pos fun b h => hb b (List.mem_reverse.1 h)]
  cases hr : as.reverse with
  | nil => exact (List.reverse_eq_nil_iff.1 hr).symm
  | cons a ds =>
    have hlast : as.getLast? = some a := by rw [← List.head?_reverse, hr]; rfl
    rw [List.dropWhile_cons_of_neg (by simp [ha a hlast]), ← hr, List.reverse_reverse]

namespace Rewording

variable {σ : List Char → List Char} (hσ : Rewording σ)

include hσ

/-! ## Characters in no word -/

theorem nil : σ [] = [] := by
  have h := congrArg List.length (hσ.append (wordBreak_nil_left []))
  rw [List.append_nil, List.length_append] at h
  exact List.length_eq_zero_iff.1 (by omega)

/-- A character outside words is kept in its place. -/
theorem cons {c : Char} (hc : isWord c = false) (cs : List Char) : σ (c :: cs) = c :: σ cs := by
  have hb : WordBreak [c] cs := wordBreak_of_last fun a ha => by
    rw [List.getLast?_singleton, Option.mem_def, Option.some.injEq] at ha
    exact ha ▸ hc
  rw [← List.singleton_append, hσ.append hb, hσ.single hc, List.singleton_append]

/-- What is in front of a text is kept if there is no word in it. -/
theorem append_of_noWord {as : List Char} (h : NoWord as) (bs : List Char) :
    σ (as ++ bs) = as ++ σ bs := by
  induction as with
  | nil => rfl
  | cons a as ih =>
    rw [List.cons_append, hσ.cons (h a List.mem_cons_self),
      ih fun c hc => h c (List.mem_cons_of_mem _ hc), List.cons_append]

/-- A text without words is kept. -/
theorem of_noWord {as : List Char} (h : NoWord as) : σ as = as := by
  have := hσ.append_of_noWord h []
  rwa [List.append_nil, hσ.nil, List.append_nil] at this

/-- What is behind a text is kept if there is no word in it. -/
theorem append_noWord {bs : List Char} (h : NoWord bs) (as : List Char) :
    σ (as ++ bs) = σ as ++ bs := by
  have hb : WordBreak as bs := wordBreak_of_head fun b hb => h b (List.mem_of_mem_head? hb)
  rw [hσ.append hb, hσ.of_noWord h]

/-- At a word break, the reworded text can be taken apart too. -/
theorem take_length {n : Nat} {cs : List Char} (hb : WordBreak (cs.take n) (cs.drop n)) :
    (σ cs).take (σ (cs.take n)).length = σ (cs.take n) := by
  have h := hσ.append hb
  rw [List.take_append_drop] at h
  rw [h, List.take_left]

/-- Between words, the rest of a reworded text is the reworded rest. -/
theorem drop_length {n : Nat} {cs : List Char} (hb : WordBreak (cs.take n) (cs.drop n)) :
    (σ cs).drop (σ (cs.take n)).length = σ (cs.drop n) := by
  have h := hσ.append hb
  rw [List.take_append_drop] at h
  rw [h, List.drop_left]

/-- Behind characters that are in no word the rest of a reworded text is the reworded rest. -/
theorem drop_of_noWord {n : Nat} {cs : List Char} (h : NoWord (cs.take n)) :
    (σ cs).drop n = σ (cs.drop n) := by
  have hsplit := hσ.append_of_noWord h (cs.drop n)
  rw [List.take_append_drop] at hsplit
  rcases Nat.le_total n cs.length with hn | hn
  · rw [hsplit, List.drop_left' (List.length_take_of_le hn)]
  · rw [hsplit, List.drop_eq_nil_of_le hn, hσ.nil, List.append_nil, List.take_of_length_le hn,
      List.drop_eq_nil_of_le hn]

theorem drop_one {c : Char} (hc : isWord c = false) (cs : List Char) :
    (σ (c :: cs)).drop 1 = σ cs := by
  rw [hσ.cons hc]
  rfl

/-! ## Classes of characters -/

/-- The class of the first character stays. -/
theorem map_head? {f : Char → Bool} (hf : Uniform f) (cs : List Char) :
    (σ cs).head?.map f = cs.head?.map f := by
  induction cs using word_induction with
  | nil => rw [hσ.nil]
  | other c cs hc => rw [hσ.cons hc, List.head?_cons, List.head?_cons]
  | word w cs hne hw hcs =>
    obtain ⟨hword, hwne⟩ := hσ.word hw hne
    obtain ⟨a, as, rfl⟩ := List.exists_cons_of_ne_nil hne
    obtain ⟨b, bs, hb⟩ := List.exists_cons_of_ne_nil hwne
    rw [hσ.append (wordBreak_of_head hcs), hb, List.cons_append, List.cons_append, List.head?_cons,
      List.head?_cons, Option.map_some, Option.map_some,
      hf b a (hword b (by simp [hb])) (hw a List.mem_cons_self)]

/-- No text is reworded to nothing, and nothing stays nothing. -/
theorem eq_nil_iff {cs : List Char} : σ cs = [] ↔ cs = [] := by
  constructor
  · intro h
    have hhead := hσ.map_head? (f := fun _ => true) (fun _ _ _ _ => rfl) cs
    simpa [h] using hhead.symm
  · rintro rfl
    exact hσ.nil

/-- A text starts with a character outside words if the reworded one does. -/
theorem head?_eq_iff {c : Char} (hc : isWord c = false) {cs : List Char} :
    (σ cs).head? = some c ↔ cs.head? = some c := by
  have hiff : ∀ l : List Char, l.head? = some c ↔ l.head?.map (· != c) = some false := by simp
  rw [hiff, hσ.map_head? (uniform_ne hc), ← hiff]

/-- A character in no word was there before. -/
theorem of_cons {c : Char} (hc : isWord c = false) {cs ds : List Char} (h : σ cs = c :: ds) :
    ∃ es, cs = c :: es ∧ ds = σ es := by
  obtain ⟨es, rfl⟩ := List.head?_eq_some_iff.1 ((hσ.head?_eq_iff hc).1 (by rw [h]; rfl))
  rw [hσ.cons hc] at h
  exact ⟨es, rfl, (List.cons.inj h).2.symm⟩

theorem ne_cons {c : Char} {cs : List Char} (hc : isWord c = false) (h : ∀ ds, cs ≠ c :: ds)
    (ds : List Char) : σ cs ≠ c :: ds := fun hds => by
  obtain ⟨es, rfl, -⟩ := hσ.of_cons hc hds
  exact h es rfl

theorem ne_cons_cons {b c : Char} {cs : List Char} (hb : isWord b = false) (hc : isWord c = false)
    (h : ∀ ds, cs ≠ b :: c :: ds) (ds : List Char) : σ cs ≠ b :: c :: ds := fun hds => by
  obtain ⟨es, rfl, hes⟩ := hσ.of_cons hb hds
  obtain ⟨fs, rfl, -⟩ := hσ.of_cons hc hes.symm
  exact h fs rfl

/-- The class of the last character stays. -/
theorem mem_getLast? {f : Char → Bool} (hf : Uniform f) {cs : List Char} {b : Char}
    (h : b ∈ (σ cs).getLast?) : ∃ a ∈ cs.getLast?, f a = f b := by
  -- What is before the last word makes no difference, unless it is all there is.
  have hlast : ∀ {as bs : List Char} {d : Char}, d ∈ bs.getLast? → d ∈ (as ++ bs).getLast? := by
    intro as bs d hd
    rw [Option.mem_def] at hd ⊢
    rw [List.getLast?_append, hd, Option.some_or]
  induction cs using word_induction with
  | nil => simp [hσ.nil] at h
  | other c cs hc ih =>
    by_cases hcs : cs = []
    · rw [hcs, hσ.single hc] at h
      exact ⟨b, hcs ▸ h, rfl⟩
    · rw [hσ.cons hc, List.getLast?_cons_of_ne_nil (mt hσ.eq_nil_iff.1 hcs)] at h
      obtain ⟨a, ha, hab⟩ := ih h
      exact ⟨a, List.singleton_append ▸ hlast ha, hab⟩
  | word w cs hne hw hhead ih =>
    by_cases hcs : cs = []
    · rw [hcs, List.append_nil] at h ⊢
      obtain ⟨a, ha⟩ := Option.ne_none_iff_exists'.1 (mt List.getLast?_eq_none_iff.1 hne)
      exact ⟨a, ha, hf a b (hw a (List.mem_of_getLast? ha))
        ((hσ.word hw hne).1 b (List.mem_of_getLast? h))⟩
    · have hne' : σ cs ≠ [] := mt hσ.eq_nil_iff.1 hcs
      rw [hσ.append (wordBreak_of_head hhead), List.getLast?_append,
        List.getLast?_eq_some_getLast hne', Option.some_or,
        ← List.getLast?_eq_some_getLast hne'] at h
      obtain ⟨a, ha, hab⟩ := ih h
      exact ⟨a, hlast ha, hab⟩

/-- A text ends with a character outside words if the reworded one does. -/
theorem getLast?_eq_iff {c : Char} (hc : isWord c = false) {cs : List Char} :
    (σ cs).getLast? = some c ↔ cs.getLast? = some c := by
  constructor
  · intro h
    obtain ⟨a, ha, hab⟩ := hσ.mem_getLast? (uniform_ne hc) h
    rw [bne_self_eq_false, bne_eq_false_iff_eq] at hab
    exact hab ▸ ha
  · intro h
    obtain ⟨ds, rfl⟩ := List.getLast?_eq_some_iff.1 h
    have hnw : NoWord [c] := fun d hd => List.mem_singleton.1 hd ▸ hc
    rw [hσ.append_noWord hnw, List.getLast?_concat]

/-! ## Runs -/

/-- A run in a class that does not tell words apart is reworded as it is. -/
theorem takeWhile {f : Char → Bool} (hf : Uniform f) (cs : List Char) :
    (σ cs).takeWhile f = σ (cs.takeWhile f) := by
  induction cs using word_induction with
  | nil => rw [List.takeWhile_nil, hσ.nil, List.takeWhile_nil]
  | other c cs hc ih =>
    rw [hσ.cons hc, List.takeWhile_cons, List.takeWhile_cons]
    split
    · rw [hσ.cons hc, ih]
    · exact hσ.nil.symm
  | word w cs hne hw hcs ih =>
    have hword := hσ.word hw hne
    have hbreak : WordBreak w cs := wordBreak_of_head hcs
    rw [hσ.append hbreak]
    by_cases ha : f 'a' = true
    · have hbreak' : WordBreak w (cs.takeWhile f) :=
        wordBreak_of_head?_eq hbreak fun _ => mem_head?_takeWhile
      rw [List.takeWhile_append_of_pos fun c hc => (hf.eq_of_isWord (hword.1 c hc)).trans ha,
        List.takeWhile_append_of_pos fun c hc => (hf.eq_of_isWord (hw c hc)).trans ha,
        hσ.append hbreak', ih]
    · -- The run ends before the word, and before the new one.
      obtain ⟨b, bs, hb⟩ := List.exists_cons_of_ne_nil hword.2
      obtain ⟨c, cs', rfl⟩ := List.exists_cons_of_ne_nil hne
      have hfb : ¬f b = true := by rwa [hf.eq_of_isWord (hword.1 b (by simp [hb]))]
      have hfc : ¬f c = true := by rwa [hf.eq_of_isWord (hw c List.mem_cons_self)]
      rw [hb, List.cons_append, List.cons_append, List.takeWhile_cons_of_neg hfb,
        List.takeWhile_cons_of_neg hfc, hσ.nil]

/-- What follows such a run is reworded, too. -/
theorem dropWhile {f : Char → Bool} (hf : Uniform f) (cs : List Char) :
    (σ cs).dropWhile f = σ (cs.dropWhile f) := by
  have h := hσ.append (wordBreak_takeWhile hf cs)
  rw [List.takeWhile_append_dropWhile, ← hσ.takeWhile hf] at h
  conv at h => lhs; rw [← List.takeWhile_append_dropWhile (p := f) (l := σ cs)]
  exact List.append_cancel_left h

/-- A reworded text is all in such a class if the text is. -/
theorem all {f : Char → Bool} (hf : Uniform f) (cs : List Char) : (σ cs).all f = cs.all f := by
  have hword : ∀ {w : List Char}, AllWord w → w ≠ [] → w.all f = f 'a' := by
    intro w hw hne
    obtain ⟨c, ds, rfl⟩ := List.exists_cons_of_ne_nil hne
    have hc : ∀ d ∈ c :: ds, f d = f 'a' := fun d hd => hf.eq_of_isWord (hw d hd)
    cases ha : f 'a' with
    | true => exact List.all_eq_true.2 fun d hd => (hc d hd).trans ha
    | false => rw [List.all_cons, hc c List.mem_cons_self, ha, Bool.false_and]
  induction cs using word_induction with
  | nil => rw [hσ.nil]
  | other c cs hc ih => rw [hσ.cons hc, List.all_cons, List.all_cons, ih]
  | word w cs hne hw hcs ih =>
    have hnew := hσ.word hw hne
    rw [hσ.append (wordBreak_of_head hcs), List.all_append, List.all_append, ih,
      hword hnew.1 hnew.2, hword hw hne]

/-- A line stays blank, or not blank, when it is reworded. -/
theorem isBlankText (cs : List Char) : isBlankText (σ cs) = isBlankText cs :=
  hσ.all uniform_isBlank cs

/-- Dropping blanks at the end commutes with rewording. -/
theorem dropTrailing {f : Char → Bool} (hf : ∀ c, f c = true → isWord c = false)
    (cs : List Char) : dropTrailing f (σ cs) = σ (dropTrailing f cs) := by
  have hsplit := dropTrailing_append_takeWhile f cs
  have htail : ∀ c ∈ (cs.reverse.takeWhile f).reverse, f c = true := fun c hc =>
    mem_takeWhile (List.mem_reverse.1 hc)
  conv => lhs; rw [← hsplit, hσ.append_noWord fun c hc => hf c (htail c hc)]
  refine dropTrailing_append (fun b hb => ?_) htail
  obtain ⟨a, ha, hab⟩ := hσ.mem_getLast? (uniform_of_no_word hf) hb
  rw [← hab, getLast?_dropTrailing ha]

/-! ## Indentation -/

theorem takeWhile_isIndent (cs : List Char) :
    (σ cs).takeWhile isIndent = cs.takeWhile isIndent := by
  rw [hσ.takeWhile uniform_isIndent, hσ.of_noWord fun c hc => isWord_of_isIndent (mem_takeWhile hc)]

/-- No indentation changes. -/
theorem indentWidth (cs : List Char) : indentWidth (σ cs) = indentWidth cs := by
  rw [SlotMarkup.indentWidth, hσ.takeWhile_isIndent, SlotMarkup.indentWidth]

theorem drop_indent {width : Nat} {cs : List Char} (h : width ≤ SlotMarkup.indentWidth cs) :
    (σ cs).drop width = σ (cs.drop width) := hσ.drop_of_noWord (noWord_take_indent h)

/-! ## Dedenting -/

end Rewording

/-- The lines of a text are the first one and those after its line feed. -/
theorem splitLines_eq (cs : List Char) : splitLines cs = cs.takeWhile (· != '\n') ::
    match cs.dropWhile (· != '\n') with
    | [] => []
    | _ :: ds => splitLines ds := by
  induction cs with
  | nil => rfl
  | cons c cs ih =>
    rw [splitLines_cons]
    split
    · rename_i hc
      subst hc
      rfl
    · rename_i hc
      have hc' : (c != '\n') = true := by simpa using hc
      rw [ih, List.modifyHead_cons, List.takeWhile_cons_of_pos (p := (· != '\n')) hc',
        List.dropWhile_cons_of_pos (p := (· != '\n')) hc']

namespace Rewording

variable {σ : List Char → List Char} (hσ : Rewording σ)

include hσ

/-- The lines of a reworded text are the reworded lines. -/
theorem splitLines (cs : List Char) : splitLines (σ cs) = (splitLines cs).map σ := by
  have hbreak : Uniform (· != '\n') := uniform_ne rfl
  induction hn : cs.length using Nat.strongRecOn generalizing cs with
  | ind n ih =>
    subst hn
    rw [splitLines_eq, splitLines_eq cs, hσ.takeWhile hbreak, hσ.dropWhile hbreak, List.map_cons]
    cases hd : cs.dropWhile (· != '\n') with
    | nil => rw [hσ.nil, List.map_nil]
    | cons c ds =>
      have hlen := (List.dropWhile_suffix (l := cs) (· != '\n')).length_le
      rw [hd, List.length_cons] at hlen
      rw [eq_of_dropWhile_ne hd, hσ.cons rfl]
      exact congrArg _ (ih _ hlen ds rfl)

/-- Reworded lines are joined to the reworded text. -/
theorem joinLines (ls : List (List Char)) : joinLines (ls.map σ) = σ (joinLines ls) := by
  induction ls with
  | nil => exact hσ.nil.symm
  | cons l ls ih =>
    cases ls with
    | nil => rfl
    | cons m ls =>
      rw [List.map_cons, List.map_cons, joinLines_cons_cons, ← List.map_cons, ih,
        joinLines_cons_cons, hσ.append (wordBreak_cons_right rfl), hσ.cons rfl]

/-- The lines share as much indentation as before. -/
theorem commonIndent (ls : List (List Char)) : commonIndent (ls.map σ) = commonIndent ls := by
  have hspaces : (fun l : List Char => !l.all isSpace) ∘ σ = fun l => !l.all isSpace :=
    funext fun l => by rw [Function.comp_apply, hσ.all uniform_isSpace]
  have hindent : SlotMarkup.indentWidth ∘ σ = SlotMarkup.indentWidth := funext hσ.indentWidth
  rw [SlotMarkup.commonIndent, SlotMarkup.commonIndent, List.filter_map, hspaces, List.map_map,
    hindent]

/-- A line can be outdented before it is reworded or after. -/
theorem outdentLine (width : Nat) (l : List Char) :
    outdentLine width (σ l) = σ (outdentLine width l) := by
  rw [SlotMarkup.outdentLine, SlotMarkup.outdentLine, hσ.indentWidth]
  split
  · exact hσ.drop_indent ‹_›
  · rfl

/-- A text can be trimmed before it is reworded or after. -/
theorem trim (cs : List Char) : trim (σ cs) = σ (trim cs) := by
  rw [SlotMarkup.trim, SlotMarkup.trim, trimLeft, trimLeft, hσ.dropWhile uniform_isSpace,
    hσ.dropTrailing fun _ => isWord_of_isSpace]

/-- Other words make no difference to how a text is dedented. -/
theorem dedentChars (cs : List Char) : dedentChars (σ cs) = σ (dedentChars cs) := by
  have hlines : ∀ width, SlotMarkup.outdentLine width ∘ σ = σ ∘ SlotMarkup.outdentLine width :=
    fun width => funext fun l => hσ.outdentLine width l
  rw [SlotMarkup.dedentChars, SlotMarkup.dedentChars, hσ.splitLines, hσ.commonIndent, List.map_map,
    hlines, ← List.map_map, hσ.joinLines, hσ.trim]

end Rewording

end SlotMarkup
