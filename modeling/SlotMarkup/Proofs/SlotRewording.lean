import SlotMarkup.Proofs.ParseRewording

/-!
# Writing values for slots

A text with tokens in it is *refilled* by writing a word in the place of every
token (`Slots.refill`). If the words are made of word characters and none is
empty, that is a rewording of the text (`tokenRewording_refill`). The text of a
template becomes its fragments with the words between them (`refill_encode`).
-/

namespace SlotMarkup.Slots

/-! ## Refilling a text -/

/-- A text with words in the place of its tokens. -/
def refill (s : Slots) (word : Nat → List Char) (cs : List Char) : List Char := (s.cut cs).join word

section Refill

variable {s : Slots} {word : Nat → List Char}

theorem Cut.join_cons (head : List Char) (index : Nat) (piece : List Char)
    (tail : List (Nat × List Char)) : Cut.join word ⟨head, (index, piece) :: tail⟩ =
      head ++ (word index ++ Cut.join word ⟨piece, tail⟩) := by
  simp [Cut.join]

/-- Cuts are joined part by part. -/
theorem Cut.join_append (c d : Cut) : (c.append d).join word = c.join word ++ d.join word := by
  obtain ⟨head, tail⟩ := c
  rw [append]
  induction tail generalizing head with
  | nil => simp [glue, join]
  | cons e tail ih => rw [glue, join_cons, ih, join_cons, List.append_assoc, List.append_assoc]

/-- What is in a refilled text was in the text, or is in a word. -/
theorem mem_refill {cs : List Char} {c : Char} (h : c ∈ s.refill word cs) :
    c ∈ cs ∨ ∃ index < s.count, c ∈ word index := by
  have hjoin := join_cut (s := s) cs
  rw [refill, Cut.join, List.mem_append, List.mem_flatMap] at h
  rw [← hjoin, Cut.join, List.mem_append, List.mem_flatMap]
  rcases h with h | ⟨e, he, h⟩
  · exact .inl (.inl h)
  · rcases List.mem_append.1 h with h | h
    · exact .inr ⟨e.1, lt_of_mem_cut he, h⟩
    · exact .inl (.inr ⟨e, he, List.mem_append_right _ h⟩)

/-- Only the empty text is refilled to nothing, if no word is empty. -/
theorem eq_nil_of_refill {cs : List Char} (hword : ∀ index < s.count, word index ≠ [])
    (h : s.refill word cs = []) : cs = [] := by
  rw [refill, Cut.join, List.append_eq_nil_iff, List.flatMap_eq_nil_iff] at h
  obtain ⟨hhead, htail⟩ := h
  have hnil : (s.cut cs).tail = [] := List.eq_nil_iff_forall_not_mem.2 fun e he =>
    hword e.1 (lt_of_mem_cut he) (List.append_eq_nil_iff.1 (htail e he)).1
  rw [← join_cut (s := s) cs, Cut.join, hhead, hnil]
  rfl

/-- Writing words for the tokens of a text is a rewording. -/
theorem tokenRewording_refill
    (hword : ∀ index < s.count, AllWord (word index) ∧ word index ≠ []) :
    TokenRewording (s.refill word) where
  append hb := by rw [refill, cut_append hb, Cut.join_append, refill, refill]
  single hc := by rw [refill, cut_single hc, Cut.join, List.flatMap_nil, List.append_nil]
  word hw hne := by
    refine ⟨fun c hc => ?_, fun h => hne (eq_nil_of_refill (fun i hi => (hword i hi).2) h)⟩
    rcases mem_refill hc with hc | ⟨index, hi, hc⟩
    · exact hw c hc
    · exact (hword index hi).1 c hc
  short h := by
    rw [refill, cut_clean (clean_of_length_lt h), Cut.join, List.flatMap_nil, List.append_nil]

/-- A token alone is refilled to the word for its slot. -/
@[simp] theorem refill_token {index : Nat} (h : index < s.count) :
    s.refill word (s.token index) = word index := by
  have hcut := cut_token_append h []
  rw [List.append_nil, cut_nil] at hcut
  rw [refill, hcut, Cut.join_cons, Cut.join]
  simp

/-- Without slots there is nothing to refill. -/
theorem refill_of_count (h : s.count = 0) : s.refill word = id := by
  funext cs
  have hnil : (s.cut cs).tail = [] := List.eq_nil_iff_forall_not_mem.2 fun e he =>
    absurd (lt_of_mem_cut he) (by omega)
  have hjoin := join_cut (s := s) cs
  rw [Cut.join, hnil] at hjoin
  rw [refill, Cut.join, hnil]
  exact hjoin

/-! ## Texts without tokens -/

/-- A text holds no token if it is not cut. -/
theorem contains_eq_false_iff {text : String} :
    s.contains text = false ↔ (s.cut text.toList).tail = [] := by
  rw [contains, Bool.not_eq_false', List.isEmpty_iff]

/-- A text holds no token if it uses none of the slots. -/
theorem contains_eq_false_iff_uses {text : String} :
    s.contains text = false ↔ ∀ index, s.uses index text.toList = 0 := by
  rw [contains_eq_false_iff]
  constructor
  · intro h index
    rw [uses, h]
    rfl
  · intro h
    refine List.eq_nil_iff_forall_not_mem.2 fun e he => ?_
    exact List.count_eq_zero.1 (h e.1) (List.mem_map_of_mem he)

/-- A text that is shorter than the mark of a token holds none. -/
theorem contains_of_length_lt {text : String} (h : text.toList.length < mark.length) :
    s.contains text = false :=
  contains_eq_false_iff_uses.2 fun index => uses_of_length_lt h index

/-- Without tokens there is nothing to refill. -/
theorem reword_of_contains {text : String} (h : s.contains text = false) :
    reword (s.refill word) text = text := by
  have hjoin := join_cut (s := s) text.toList
  rw [Cut.join, contains_eq_false_iff.1 h] at hjoin
  rw [reword, refill, Cut.join, contains_eq_false_iff.1 h, List.flatMap_nil]
  rw [List.flatMap_nil] at hjoin
  rw [hjoin, String.ofList_toList]

/-- A text that holds no token is none. -/
theorem index?_of_contains {text : String} (h : s.contains text = false) :
    s.index? text = none := by
  rw [Option.eq_none_iff_forall_ne_some]
  intro index hindex
  obtain ⟨hlt, htoken⟩ := index?_eq_some_iff.1 hindex
  have hcut := cut_token_append hlt []
  rw [List.append_nil, ← htoken] at hcut
  rw [contains_eq_false_iff, hcut] at h
  simp at h

theorem index?_of_length_lt {text : String} (h : text.toList.length < mark.length) :
    s.index? text = none := index?_of_contains (contains_of_length_lt h)

end Refill

end SlotMarkup.Slots

/-! ## Writing values into a template -/

namespace SlotMarkup

/-- The fragments with the values between them. -/
def Template.interpolate : List String → List String → String
  | [], _ => ""
  | f :: fs, [] => f ++ interpolate fs []
  | f :: fs, v :: vs => f ++ (v ++ interpolate fs vs)

namespace Slots

/-- The word for a slot. -/
def wordOf (values : List String) (index : Nat) : List Char := ((values[index]?).getD "").toList

/-- Interpolating joins the fragments with the values between them. -/
theorem toList_interpolate (f : String) (fs values : List String) (k : Nat)
    (h : values.length = k + fs.length) :
    (Template.interpolate (f :: fs) (values.drop k)).toList =
      Cut.join (wordOf values) ⟨f.toList, (fs.zipIdx k).map fun e => (e.2, e.1.toList)⟩ := by
  induction fs generalizing f k with
  | nil =>
    rw [List.drop_eq_nil_of_le (by simp [h])]
    simp [Template.interpolate, Cut.join]
  | cons g fs ih =>
    have hlt : k < values.length := by simp [h]
    have hmore := ih g (k + 1) (by simp [h]; omega)
    rw [List.drop_eq_getElem_cons hlt, Template.interpolate, String.toList_append,
      String.toList_append, hmore, List.zipIdx_cons, List.map_cons, Cut.join_cons, wordOf,
      List.getElem?_eq_getElem hlt, Option.getD_some]

/-- Writing words for the tokens in the text of a template is writing them between its
    fragments. -/
theorem refill_encode {fragments values : List String} (hclean : ∀ f ∈ fragments, Clean f.toList)
    (hlen : values.length = (ofFragments fragments).count) :
    (ofFragments fragments).refill (wordOf values)
      ((ofFragments fragments).encode fragments).toList =
        (Template.interpolate fragments values).toList := by
  cases fragments with
  | nil =>
    rw [encode, String.toList_ofList, encodeFrom, refill, cut_nil]
    rfl
  | cons f fs =>
    have hjoin := toList_interpolate f fs values 0 (by simp [hlen, ofFragments])
    rw [refill, cut_encode hclean, ← hjoin, List.drop_zero]

/-- Strings of word characters are words for all slots. -/
theorem wordOf_spec {s : Slots} {values : List String} (hlen : values.length = s.count)
    (hvalues : ∀ v ∈ values, v ≠ "" ∧ v.toList.all isWord = true) :
    ∀ index < s.count, AllWord (wordOf values index) ∧ wordOf values index ≠ [] := by
  intro index hindex
  have hlt : index < values.length := hlen ▸ hindex
  obtain ⟨hne, hall⟩ := hvalues _ (List.getElem_mem hlt)
  rw [wordOf, List.getElem?_eq_getElem hlt, Option.getD_some]
  exact ⟨List.all_eq_true.1 hall, mt String.toList_eq_nil_iff.1 hne⟩

end Slots

end SlotMarkup
