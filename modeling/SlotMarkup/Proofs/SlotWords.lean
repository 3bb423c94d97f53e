import SlotMarkup.Proofs.EncodeFind
import SlotMarkup.Proofs.Words

/-!
# Tokens in words

A token is made of word characters alone, so it lies within one word of a text.
Taking a text apart at its tokens therefore goes along with cutting it where no
word goes on (`cut_append`), and the tokens of a slot are counted by a
`WordMeasure` (`wordMeasure_uses`).

In the text of a template every slot is used once (`uses_encode`).
-/

namespace SlotMarkup.Slots

variable {s : Slots}

/-! ## Tokens are words -/

theorem isWord_of_isDigit {c : Char} (h : c.isDigit = true) : isWord c = true := by
  simp [isWord, Char.isAlphanum, h]

theorem isWord_of_mem_mark {c : Char} (h : c ∈ mark) : isWord c = true := by
  have hall : mark.all isWord = true := by decide
  exact List.all_eq_true.1 hall c h

/-- A token is all of word characters, so a word break never parts it. -/
theorem allWord_token (index : Nat) : AllWord (s.token index) := fun c hc => by
  rcases List.mem_append.1 hc with hc | hc
  · exact isWord_of_mem_mark hc
  · exact isWord_of_isDigit (isDigit_of_mem_digits hc)

/-- No token goes over a word break. -/
theorem tokenAt?_append {as bs : List Char} (hb : WordBreak as bs) (has : as ≠ []) :
    s.tokenAt? (as ++ bs) = (s.tokenAt? as).map fun r => (r.1, r.2 ++ bs) := by
  cases ha : s.tokenAt? as with
  | some r =>
    obtain ⟨hlt, heq⟩ := tokenAt?_eq_some_iff.1 ha
    exact tokenAt?_eq_some_iff.2 ⟨hlt, by rw [heq, List.append_assoc]⟩
  | none =>
    rw [Option.map_none, Option.eq_none_iff_forall_ne_some]
    rintro ⟨index, rest⟩ ht
    obtain ⟨hlt, heq⟩ := tokenAt?_eq_some_iff.1 ht
    rcases List.append_eq_append_iff.1 heq with ⟨ds, hds, hbs⟩ | ⟨ds, hds, -⟩
    · -- The token would begin before the break and end after it.
      cases ds with
      | nil =>
        have := tokenAt?_eq_some_iff.2 ⟨hlt, show as = s.token index ++ [] by simp [hds]⟩
        simp [ha] at this
      | cons d ds =>
        have hw := allWord_token (s := s) index
        rw [hds] at hw
        obtain ⟨a, ha'⟩ := Option.ne_none_iff_exists'.1 (mt List.getLast?_eq_none_iff.1 has)
        have hd := hb a ha' d (by rw [hbs]; rfl)
          (hw a (List.mem_append_left _ (List.mem_of_getLast? ha')))
        rw [hw d (List.mem_append_right _ List.mem_cons_self)] at hd
        exact absurd hd (by decide)
    · -- The token would end before the break.
      have := tokenAt?_eq_some_iff.2 ⟨hlt, hds⟩
      simp [ha] at this

/-! ## Cuts -/

/-- A cut text before another one: its last piece goes on in the other. -/
def Cut.glue (head : List Char) : List (Nat × List Char) → Cut → Cut
  | [], d => ⟨head ++ d.head, d.tail⟩
  | (index, piece) :: tail, d =>
    let more := Cut.glue piece tail d
    ⟨head, (index, more.head) :: more.tail⟩

/-- One cut text after another. -/
def Cut.append (c d : Cut) : Cut := Cut.glue c.head c.tail d

theorem Cut.glue_cons (c : Char) (head : List Char) (tail : List (Nat × List Char)) (d : Cut) :
    Cut.glue (c :: head) tail d =
      ⟨c :: (Cut.glue head tail d).head, (Cut.glue head tail d).tail⟩ := by
  cases tail with
  | nil => rfl
  | cons e tail => rfl

/-- Gluing two cuts keeps the slots of both, in order. -/
theorem Cut.map_index_glue (head : List Char) (tail : List (Nat × List Char)) (d : Cut) :
    (Cut.glue head tail d).tail.map (·.1) = tail.map (·.1) ++ d.tail.map (·.1) := by
  induction tail generalizing head with
  | nil => rfl
  | cons e tail ih => rw [Cut.glue, List.map_cons, ih, List.map_cons, List.cons_append]

/-- Taking apart goes along with word breaks. -/
theorem cut_append {as bs : List Char} (hb : WordBreak as bs) :
    s.cut (as ++ bs) = (s.cut as).append (s.cut bs) := by
  fun_induction cut s as with
  | case1 as index rest h more ih =>
    have has : as ≠ [] := by
      rintro rfl
      simp at h
    obtain ⟨-, rfl⟩ := tokenAt?_eq_some_iff.1 h
    have hbs := tokenAt?_append (s := s) hb has
    rw [h, Option.map_some] at hbs
    rw [cut_of_tokenAt? hbs, ih (hb.of_suffix (List.suffix_append _ _))]
    rfl
  | case2 => rw [List.nil_append, Cut.append, Cut.glue, List.nil_append]
  | case3 c as h more ih =>
    have hbs := tokenAt?_append (s := s) hb (List.cons_ne_nil c as)
    rw [h, Option.map_none, List.cons_append] at hbs
    rw [List.cons_append, cut_cons hbs, ih (hb.of_suffix (List.suffix_cons c as)),
      Cut.append, Cut.append, Cut.glue_cons]

/-! ## Uses of a slot -/

/-- How often a text holds the token of a slot. -/
def uses (s : Slots) (index : Nat) (cs : List Char) : Nat :=
  ((s.cut cs).tail.map (·.1)).count index

/-- How often the token of a slot is found in a text. -/
def occurs (s : Slots) (index : Nat) (text : String) : Nat :=
  ((s.find text).map (·.index)).count index

/-- How often a token occurs in a text is how often its slot is used. -/
theorem occurs_eq_uses (index : Nat) (text : String) :
    s.occurs index text = s.uses index text.toList := by
  rw [occurs, map_index_find, uses]

theorem cut_single {c : Char} (hc : isWord c = false) : s.cut [c] = ⟨[c], []⟩ := by
  have hne : c ≠ 'e' := by
    rintro rfl
    exact absurd hc (by decide)
  rw [cut_cons (tokenAt?_eq_none_of_ne hne []), cut_nil]

/-- How often a slot is used is counted word by word. -/
theorem wordMeasure_uses (s : Slots) (index : Nat) : WordMeasure (s.uses index) where
  append {as bs} hb := by
    rw [uses, cut_append hb, Cut.append, Cut.map_index_glue, List.count_append]
    rfl
  single {c} hc := by
    rw [uses, cut_single hc]
    rfl

/-- A text shorter than a token uses no slot. -/
theorem uses_of_length_lt {cs : List Char} (h : cs.length < mark.length) (index : Nat) :
    s.uses index cs = 0 := by
  rw [uses, cut_clean (clean_of_length_lt h)]
  rfl

/-- In the text of a template every slot is used once. -/
theorem uses_encode {fragments : List String} (hclean : ∀ f ∈ fragments, Clean f.toList)
    {index : Nat} (h : index < (ofFragments fragments).count) :
    (ofFragments fragments).uses index ((ofFragments fragments).encode fragments).toList = 1 := by
  have hne : fragments ≠ [] := by
    rintro rfl
    simp [ofFragments] at h
  rw [uses, map_index_cut_encode hne hclean]
  exact List.count_range.trans (if_pos h)

end SlotMarkup.Slots
