import SlotMarkup.Proofs.ScanMeasure
import SlotMarkup.Proofs.SlotWords
import SlotMarkup.Text.Dedent

/-!
# Dedenting loses no words

A template is dedented before it is cut into tokens. What that takes off are
spaces: it changes no measure of words (`dedent_measure`), and leaves carriage
returns before their line feeds (`crlfOnly_dedent`).
-/

namespace SlotMarkup

/-! ## Carriage returns -/

theorem crlfOnly_nil : CrlfOnly [] := fun ds h => by simp at h

theorem crlfOnly_cons {c : Char} {cs : List Char} :
    CrlfOnly (c :: cs) ↔ (c = '\r' → cs.head? = some '\n') ∧ CrlfOnly cs := by
  constructor
  · intro h
    exact ⟨fun hc => h cs (hc ▸ List.suffix_rfl), h.of_suffix (List.suffix_cons c cs)⟩
  · rintro ⟨hc, h⟩ ds hds
    rcases List.suffix_cons_iff.1 hds with heq | hsub
    · obtain ⟨rfl, rfl⟩ := List.cons.inj heq
      exact hc rfl
    · exact h ds hsub

/-- Texts without stray returns have none when they are joined. -/
theorem CrlfOnly.append {as bs : List Char} (ha : CrlfOnly as) (hb : CrlfOnly bs) :
    CrlfOnly (as ++ bs) := by
  induction as with
  | nil => exact hb
  | cons a as ih =>
    obtain ⟨hc, has⟩ := crlfOnly_cons.1 ha
    refine crlfOnly_cons.2 ⟨fun h => ?_, ih has⟩
    show (as ++ bs).head? = some '\n'
    rw [List.head?_append, hc h, Option.some_or]

/-- Words have no returns. -/
theorem AllWord.crlfOnly {cs : List Char} (h : AllWord cs) : CrlfOnly cs := fun ds hds => by
  have := h '\r' (hds.subset List.mem_cons_self)
  exact absurd this (by decide)

/-- A line feed separates carriage returns. -/
theorem crlfOnly_append_newline {as bs : List Char} :
    CrlfOnly (as ++ '\n' :: bs) ↔ CrlfOnly (as ++ ['\n']) ∧ CrlfOnly bs := by
  induction as with
  | nil => simp [crlfOnly_cons, crlfOnly_nil]
  | cons a as ih =>
    have hhead : (as ++ '\n' :: bs).head? = (as ++ ['\n']).head? := by cases as <;> rfl
    rw [List.cons_append, List.cons_append, crlfOnly_cons, crlfOnly_cons, ih, hhead, and_assoc]

/-- Lines that lose characters at their start only keep their breaks. -/
theorem crlfOnly_joinLines_map {f : List Char → List Char} (hf : ∀ l, f l <:+ l)
    {ls : List (List Char)} (h : CrlfOnly (joinLines ls)) : CrlfOnly (joinLines (ls.map f)) := by
  induction ls with
  | nil => exact crlfOnly_nil
  | cons l ls ih =>
    cases ls with
    | nil => exact h.of_suffix (hf l)
    | cons m ls =>
      rw [joinLines_cons_cons] at h
      obtain ⟨hl, hls⟩ := crlfOnly_append_newline.1 h
      rw [List.map_cons, List.map_cons, joinLines_cons_cons]
      refine crlfOnly_append_newline.2 ⟨hl.of_suffix ?_, ih hls⟩
      obtain ⟨ds, hds⟩ := hf l
      exact ⟨ds, by rw [← List.append_assoc, hds]⟩

/-- A text without the spaces at its end does not end in a carriage return, so each
    is followed as before. -/
theorem CrlfOnly.dropTrailing {f : Char → Bool} (hr : f '\r' = true) {cs : List Char}
    (h : CrlfOnly cs) : CrlfOnly (dropTrailing f cs) := by
  intro ds hds
  obtain ⟨as, has⟩ := hds
  have hsplit := dropTrailing_append_takeWhile f cs
  rw [← has, List.append_assoc, List.cons_append] at hsplit
  have hhead := h _ ⟨as, hsplit⟩
  cases ds with
  | nil =>
    have := getLast?_dropTrailing (f := f) (l := cs) (a := '\r') (by rw [← has]; simp)
    rw [hr] at this
    simp at this
  | cons d ds => exact hhead

/-- Only the start of a line is taken off. -/
theorem outdentLine_suffix (width : Nat) (line : List Char) : outdentLine width line <:+ line := by
  rw [outdentLine]
  split
  · exact List.drop_suffix width line
  · exact List.suffix_rfl

/-- Dedenting keeps the line breaks. -/
theorem crlfOnly_dedent {cs : List Char} (h : CrlfOnly cs) : CrlfOnly (dedentChars cs) := by
  rw [dedentChars, trim, trimLeft]
  refine CrlfOnly.dropTrailing rfl (CrlfOnly.of_suffix ?_ (List.dropWhile_suffix _))
  exact crlfOnly_joinLines_map (outdentLine_suffix _) (by rwa [joinLines_splitLines])

/-- A template has no other carriage returns than its fragments. -/
theorem Slots.crlfOnly_encodeFrom {s : Slots} {fragments : List String}
    (h : ∀ f ∈ fragments, CrlfOnly f.toList) (index : Nat) :
    CrlfOnly (s.encodeFrom index fragments) := by
  fun_induction encodeFrom s index fragments with
  | case1 => exact crlfOnly_nil
  | case2 index f => exact h f (by simp)
  | case3 index f g fs ih =>
    refine (h f (by simp)).append ((allWord_token index).crlfOnly.append (ih fun f hf => ?_))
    exact h f (List.mem_cons_of_mem _ hf)

/-! ## Measures -/

section Measure

variable {μ : List Char → Nat} (hμ : WordMeasure μ)

include hμ

theorem joinLines_measure (ls : List (List Char)) : μ (joinLines ls) = (ls.map μ).sum := by
  induction ls with
  | nil => exact hμ.nil
  | cons l ls ih =>
    cases ls with
    | nil => simp [joinLines]
    | cons m ls =>
      rw [joinLines_cons_cons, hμ.append (wordBreak_cons_right rfl), hμ.cons rfl, ih]
      rfl

/-- The measure does not see what is taken off a line. -/
theorem outdentLine_measure (width : Nat) (line : List Char) :
    μ (outdentLine width line) = μ line := by
  rw [outdentLine]
  split
  · rename_i hw
    conv => rhs; rw [← List.take_append_drop width line]
    rw [hμ.append_of_noWord (noWord_take_indent hw)]
  · rfl

/-- The measure does not see what is trimmed. -/
theorem trim_measure (cs : List Char) : μ (trim cs) = μ cs := by
  have hspaces : NoWord ((trimLeft cs).reverse.takeWhile isSpace).reverse := fun c hc =>
    isWord_of_isSpace (mem_takeWhile (List.mem_reverse.1 hc))
  rw [trim, ← hμ.append_noWord_right hspaces, dropTrailing_append_takeWhile, trimLeft,
    hμ.dropWhile fun _ => isWord_of_isSpace]

/-- Dedenting a text takes nothing from its words. -/
theorem dedent_measure (cs : List Char) : μ (dedentChars cs) = μ cs := by
  have hlines : ∀ width, μ ∘ outdentLine width = μ := fun width =>
    funext fun line => outdentLine_measure hμ width line
  rw [dedentChars, trim_measure hμ, joinLines_measure hμ, List.map_map, hlines,
    ← joinLines_measure hμ, joinLines_splitLines]

end Measure

end SlotMarkup
