import Mathlib.Algebra.GroupWithZero.Nat
import SlotMarkup.Token.Tag

/-!
# Words

The *words* of a text are its maximal runs of word characters (`isWord`).
Readers of the markup cut a text only where no word goes on (`WordBreak`):
blanks, brackets, quotes and sigils, by which they decide, are no word
characters.

A `WordMeasure` counts something in the words of a text: it adds up over such
cuts, and what is in no word counts nothing. Texts are gone through word by word
(`word_induction`, `word_cases`).

A character class is `Uniform` if it makes no difference between word
characters. Taking the run of such a class from a text ends at a word break
(`wordBreak_takeWhile`).
-/

namespace SlotMarkup

/-! ## Classes of characters -/

/-- A text of word characters alone. -/
def AllWord (cs : List Char) : Prop := ∀ c ∈ cs, isWord c = true

/-- A text without word characters. -/
def NoWord (cs : List Char) : Prop := ∀ c ∈ cs, isWord c = false

/-- A class that has all word characters or none of them. -/
def Uniform (f : Char → Bool) : Prop := ∀ a b, isWord a = true → isWord b = true → f a = f b

/-- A class without characters of words does not tell them apart. -/
theorem uniform_of_no_word {f : Char → Bool} (h : ∀ c, f c = true → isWord c = false) :
    Uniform f := by
  have hf : ∀ c, isWord c = true → f c = false := fun c hc =>
    Bool.eq_false_iff.2 fun hfc => by simp [h c hfc] at hc
  exact fun a b ha hb => (hf a ha).trans (hf b hb).symm

/-- A class with all characters of words does not tell them apart. -/
theorem uniform_of_all_word {f : Char → Bool} (h : ∀ c, isWord c = true → f c = true) :
    Uniform f := fun a b ha hb => (h a ha).trans (h b hb).symm

/-- No blank is in a word. -/
theorem isWord_of_isBlank {c : Char} (h : isBlank c = true) : isWord c = false := by
  simp only [isBlank, Bool.or_eq_true, beq_iff_eq] at h
  rcases h with (((rfl | rfl) | rfl) | rfl) | rfl <;> rfl

/-- Spaces and tabs are blanks. -/
theorem isBlank_of_isIndent {c : Char} (h : isIndent c = true) : isBlank c = true := by
  simp only [isIndent, Bool.or_eq_true, beq_iff_eq] at h
  rcases h with rfl | rfl <;> rfl

theorem isWord_of_isIndent {c : Char} (h : isIndent c = true) : isWord c = false :=
  isWord_of_isBlank (isBlank_of_isIndent h)

/-- Attributes stand apart by blanks and commas. -/
theorem isWord_of_gap {c : Char} (h : (isBlank c || c == ',') = true) : isWord c = false := by
  rcases Bool.or_eq_true _ _ ▸ h with hb | hb
  · exact isWord_of_isBlank hb
  · rw [beq_iff_eq.1 hb]
    rfl

/-- The joints of names part words. -/
theorem isWord_of_isNameJoint {c : Char} (h : isNameJoint c = true) : isWord c = false := by
  simp only [isNameJoint, Bool.or_eq_true, beq_iff_eq] at h
  rcases h with rfl | rfl <;> rfl

theorem isNamePart_of_isWord {c : Char} (h : isWord c = true) : isNamePart c = true := by
  simp [isNamePart, h]

theorem isTagNamePart_of_isWord {c : Char} (h : isWord c = true) : isTagNamePart c = true := by
  simp [isTagNamePart, h]

/-- The code points of word characters. -/
theorem toNat_of_isWord {c : Char} (h : isWord c = true) :
    (48 ≤ c.toNat ∧ c.toNat ≤ 57) ∨ (65 ≤ c.toNat ∧ c.toNat ≤ 90) ∨ c.toNat = 95 ∨
      (97 ≤ c.toNat ∧ c.toNat ≤ 122) := by
  have hranges : isWord c = (decide (65 ≤ c.val ∧ c.val ≤ 90) || 97 ≤ c.val && c.val ≤ 122 ||
    48 ≤ c.val && c.val ≤ 57 || c == '_') := rfl
  simp only [hranges, Bool.or_eq_true, Bool.and_eq_true, decide_eq_true_eq, beq_iff_eq,
    UInt32.le_iff_toNat_le] at h
  have hn : c.toNat = c.val.toNat := rfl
  rw [hn]
  rcases h with ((⟨h1, h2⟩ | ⟨h1, h2⟩) | ⟨h1, h2⟩) | rfl
  · exact .inr (.inl ⟨h1, h2⟩)
  · exact .inr (.inr (.inr ⟨h1, h2⟩))
  · exact .inl ⟨h1, h2⟩
  · exact .inr (.inr (.inl rfl))

/-- No white space of Unicode is in a word. -/
theorem isWord_of_isSpace {c : Char} (h : isSpace c = true) : isWord c = false := by
  refine Bool.eq_false_iff.2 fun hc => ?_
  have := toNat_of_isWord hc
  simp only [isSpace, spaceRanges, List.any_cons, List.any_nil, Bool.or_eq_true, Bool.and_eq_true,
    decide_eq_true_eq, Bool.or_false] at h
  omega

theorem uniform_isBlank : Uniform isBlank := uniform_of_no_word fun _ => isWord_of_isBlank

theorem uniform_isIndent : Uniform isIndent := uniform_of_no_word fun _ => isWord_of_isIndent

theorem uniform_isSpace : Uniform isSpace := uniform_of_no_word fun _ => isWord_of_isSpace

theorem uniform_isNamePart : Uniform isNamePart := uniform_of_all_word fun _ => isNamePart_of_isWord

theorem uniform_isTagNamePart : Uniform isTagNamePart :=
  uniform_of_all_word fun _ => isTagNamePart_of_isWord

/-- A character outside words can be told from each of theirs alike. -/
theorem uniform_ne {c : Char} (hc : isWord c = false) : Uniform (· != c) :=
  uniform_of_all_word fun d hd => by
    rw [bne_iff_ne]
    rintro rfl
    simp [hc] at hd

/-! ## Word breaks -/

/-- No word goes on from the end of one text into another. -/
def WordBreak (as bs : List Char) : Prop :=
  ∀ a ∈ as.getLast?, ∀ b ∈ bs.head?, isWord a = true → isWord b = false

/-- A text can be parted before a character outside words. -/
theorem wordBreak_of_head {as bs : List Char} (h : ∀ b ∈ bs.head?, isWord b = false) :
    WordBreak as bs := fun _ _ b hb _ => h b hb

/-- A text can be parted behind a character outside words. -/
theorem wordBreak_of_last {as bs : List Char} (h : ∀ a ∈ as.getLast?, isWord a = false) :
    WordBreak as bs := fun a ha _ _ hw => absurd (h a ha) (by simp [hw])

@[simp] theorem wordBreak_nil_left (bs : List Char) : WordBreak [] bs := by
  intro a ha
  simp at ha

theorem wordBreak_cons_right {as bs : List Char} {b : Char} (h : isWord b = false) :
    WordBreak as (b :: bs) := wordBreak_of_head fun c hc => by
  simp only [List.head?_cons, Option.mem_def, Option.some.injEq] at hc
  exact hc ▸ h

theorem wordBreak_append_left {as bs : List Char} {a : Char} (h : isWord a = false) :
    WordBreak (as ++ [a]) bs := wordBreak_of_last fun c hc => by
  rw [List.getLast?_concat, Option.mem_def, Option.some.injEq] at hc
  exact hc ▸ h

/-- Whether a text can be parted somewhere depends on what stands next to the place. -/
theorem WordBreak.of_suffix {as bs cs : List Char} (h : WordBreak as bs) (hc : cs <:+ as) :
    WordBreak cs bs := by
  obtain ⟨ds, rfl⟩ := hc
  intro a ha
  refine h a ?_
  rw [Option.mem_def] at ha ⊢
  rw [List.getLast?_append, ha, Option.some_or]

theorem mem_head?_dropWhile {α : Type} {f : α → Bool} {l : List α} {b : α}
    (h : b ∈ (l.dropWhile f).head?) : f b = false := by
  have := List.head?_dropWhile_not f l
  rw [Option.mem_def] at h
  simpa [h] using this

theorem mem_takeWhile {α : Type} {f : α → Bool} {l : List α} {a : α} (h : a ∈ l.takeWhile f) :
    f a = true := List.all_eq_true.1 List.all_takeWhile a h

/-- A run that ends in the first part does not see the second. -/
theorem takeWhile_append_of_mem {α : Type} {f : α → Bool} {as bs : List α}
    (h : ∃ a ∈ as, f a = false) : (as ++ bs).takeWhile f = as.takeWhile f := by
  obtain ⟨a, ha, hf⟩ := h
  rw [List.takeWhile_append, if_neg]
  intro hlen
  rw [← (List.takeWhile_prefix f).eq_of_length hlen] at ha
  simp [mem_takeWhile ha] at hf

/-- A run goes no further than the first part if the second does not go on with it. -/
theorem takeWhile_append_of_head {α : Type} {f : α → Bool} {as bs : List α}
    (h : ∀ b ∈ bs.head?, f b = false) : (as ++ bs).takeWhile f = as.takeWhile f := by
  have hbs : bs.takeWhile f = [] := by
    cases bs with
    | nil => rfl
    | cons b bs => rw [List.takeWhile_cons_of_neg (by simp [h b rfl])]
  rw [List.takeWhile_append, hbs, List.append_nil]
  split
  · rename_i hlen
    exact ((List.takeWhile_prefix f).eq_of_length hlen).symm
  · rfl

/-- A run that is all of the first part ends where the second stops it. -/
theorem takeWhile_append_stop {α : Type} {f : α → Bool} {as bs : List α}
    (has : ∀ a ∈ as, f a = true) (hbs : ∀ b ∈ bs.head?, f b = false) :
    (as ++ bs).takeWhile f = as := by
  rw [takeWhile_append_of_head hbs, ← List.append_nil as, List.takeWhile_append_of_pos has,
    List.takeWhile_nil]

/-- Dropping as many elements as the run has drops the run. -/
@[simp] theorem drop_length_takeWhile {α : Type} (f : α → Bool) (l : List α) :
    l.drop (l.takeWhile f).length = l.dropWhile f := by
  induction l with
  | nil => rfl
  | cons a l ih => by_cases h : f a = true <;> simp [h, ih]

@[simp] theorem Place.rest_skip (p : Place) (f : Char → Bool) :
    (p.skip f).rest = p.rest.dropWhile f := drop_length_takeWhile f p.rest

/-- The run of a uniform class ends at a word break. -/
theorem wordBreak_takeWhile {f : Char → Bool} (hf : Uniform f) (cs : List Char) :
    WordBreak (cs.takeWhile f) (cs.dropWhile f) := by
  intro a ha b hb hwa
  refine Bool.eq_false_iff.2 fun hwb => ?_
  have := hf a b hwa hwb
  rw [mem_takeWhile (List.mem_of_mem_getLast? ha), mem_head?_dropWhile hb] at this
  exact absurd this (by decide)

/-- Induction on a text word by word. -/
theorem word_induction {motive : List Char → Prop} (nil : motive [])
    (other : ∀ c cs, isWord c = false → motive cs → motive (c :: cs))
    (word : ∀ w cs, w ≠ [] → AllWord w → (∀ c ∈ cs.head?, isWord c = false) → motive cs →
      motive (w ++ cs)) (cs : List Char) : motive cs := by
  induction hn : cs.length using Nat.strongRecOn generalizing cs with
  | ind n ih =>
    match cs, hn with
    | [], _ => exact nil
    | c :: cs, hn =>
      by_cases hc : isWord c = true
      · have hw : (c :: cs).takeWhile isWord = c :: cs.takeWhile isWord :=
          List.takeWhile_cons_of_pos hc
        have hlen := congrArg List.length
          (List.takeWhile_append_dropWhile (p := isWord) (l := c :: cs))
        rw [List.length_append, hw, List.length_cons] at hlen
        rw [← List.takeWhile_append_dropWhile (p := isWord) (l := c :: cs)]
        refine word _ _ (by simp [hw]) (fun _ => mem_takeWhile) (fun _ => mem_head?_dropWhile) ?_
        exact ih _ (by omega) _ rfl
      · exact other c cs (by simpa using hc) (ih _ (by rw [← hn]; simp) cs rfl)

/-- A text is empty, or starts with a character in no word, or with all of a word. -/
theorem word_cases {motive : List Char → Prop} (nil : motive [])
    (other : ∀ c cs, isWord c = false → motive (c :: cs))
    (word : ∀ w cs, w ≠ [] → AllWord w → (∀ c ∈ cs.head?, isWord c = false) → motive (w ++ cs))
    (cs : List Char) : motive cs :=
  word_induction nil (fun c cs hc _ => other c cs hc)
    (fun w cs hne hw hcs _ => word w cs hne hw hcs) cs

/-! ## Measures -/

/-- A count of something in the words of a text. -/
structure WordMeasure (μ : List Char → Nat) : Prop where
  append : ∀ {as bs}, WordBreak as bs → μ (as ++ bs) = μ as + μ bs
  single : ∀ {c}, isWord c = false → μ [c] = 0

namespace WordMeasure

variable {μ : List Char → Nat} (hμ : WordMeasure μ)

include hμ

theorem nil : μ [] = 0 := by
  have := hμ.append (wordBreak_nil_left [])
  rw [List.append_nil] at this
  omega

/-- A character outside words adds nothing to the measure. -/
theorem cons {c : Char} (hc : isWord c = false) (cs : List Char) : μ (c :: cs) = μ cs := by
  have hb : WordBreak [c] cs := wordBreak_of_last fun a ha => by
    rw [List.getLast?_singleton, Option.mem_def, Option.some.injEq] at ha
    exact ha ▸ hc
  rw [← List.singleton_append, hμ.append hb, hμ.single hc, Nat.zero_add]

/-- What is in front of a text adds nothing if there is no word in it. -/
theorem append_of_noWord {as : List Char} (h : NoWord as) (bs : List Char) :
    μ (as ++ bs) = μ bs := by
  induction as with
  | nil => rfl
  | cons a as ih =>
    rw [List.cons_append, hμ.cons (h a List.mem_cons_self),
      ih fun c hc => h c (List.mem_cons_of_mem _ hc)]

/-- Without words there is nothing to measure. -/
theorem of_noWord {as : List Char} (h : NoWord as) : μ as = 0 := by
  have := hμ.append_of_noWord h []
  rwa [List.append_nil, hμ.nil] at this

/-- Skipping characters outside words loses nothing. -/
theorem dropWhile {f : Char → Bool} (hf : ∀ c, f c = true → isWord c = false) (cs : List Char) :
    μ (cs.dropWhile f) = μ cs := by
  have hrun : NoWord (cs.takeWhile f) := fun c hc => hf c (mem_takeWhile hc)
  have h := hμ.append_of_noWord hrun (cs.dropWhile f)
  rw [List.takeWhile_append_dropWhile] at h
  exact h.symm

/-- Characters at the end of a text that are in no word do not count. -/
theorem append_noWord_right {bs : List Char} (h : NoWord bs) (as : List Char) :
    μ (as ++ bs) = μ as := by
  have hb : WordBreak as bs := wordBreak_of_head fun b hb => h b (List.mem_of_mem_head? hb)
  rw [hμ.append hb, hμ.of_noWord h, Nat.add_zero]

end WordMeasure

end SlotMarkup
