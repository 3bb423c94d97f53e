import SlotMarkup.Proofs.ByteSpelling
import SlotMarkup.Proofs.EncodeFind

/-!
# Where tokens stand

The tokens that are found in a text are all that stand anywhere in it, and each stands where it is
found. A token begins with a letter that occurs nowhere else in one, so that it cannot begin inside
another one: it stands behind every token that begins before it.

* `mem_find_iff`: a token is found where it stands, and nowhere else;
* `mem_find_iff_slice?`: so the ranges found are those that are one token as a whole;
* `pairwise_find`: they are found in order, and none reaches into the next one.
-/

namespace SlotMarkup.Slots

variable {s : Slots}

/-! ## Standing in a text -/

/-- In `cs`, which comes behind `pre`, the token of a slot stands at the range of `o`. -/
def Stands (s : Slots) (pre cs : List Char) (o : Occurrence) : Prop :=
  o.index < s.count ∧ ∃ as bs, cs = as ++ (s.token o.index ++ bs) ∧
    o.start = byteSize (pre ++ as) ∧ o.stop = o.start + s.tokenLength

theorem not_stands_nil (pre : List Char) (o : Occurrence) : ¬s.Stands pre [] o := by
  rintro ⟨-, as, bs, h, -⟩
  simp [token_eq] at h

/-- Behind its first letter a token has no letter that could begin one. -/
theorem ne_of_mem_token_tail {index : Nat} {c : Char} (h : c ∈ mark.tail ++ s.digits index) :
    c ≠ 'e' := by
  rcases List.mem_append.1 h with h | h
  · exact ne_of_mem_mark_tail h
  · rintro rfl
    exact absurd (isDigit_of_mem_digits h) (by decide)

/-- What stands in a text that starts with a token is this token, or it stands behind it. -/
theorem append_token_cases {index other : Nat} {rest as bs : List Char} (hi : index < s.count)
    (ho : other < s.count) (h : s.token index ++ rest = as ++ (s.token other ++ bs)) :
    as = [] ∧ other = index ∨ ∃ ds, as = s.token index ++ ds ∧ rest = ds ++ (s.token other ++ bs) := by
  rcases List.append_eq_append_iff.1 h with ⟨ds, has, hrest⟩ | ⟨ds, htoken, hds⟩
  · exact .inr ⟨ds, has, hrest⟩
  · cases as with
    | nil =>
      have hat : s.tokenAt? (s.token index ++ rest) = some (other, bs) :=
        tokenAt?_eq_some_iff.2 ⟨ho, h⟩
      rw [tokenAt?_token_append hi] at hat
      exact .inl ⟨rfl, (Prod.mk.inj (Option.some.inj hat)).1.symm⟩
    | cons a as =>
      cases ds with
      | nil => exact .inr ⟨[], by simpa using htoken.symm, by simpa using hds.symm⟩
      | cons d ds =>
        -- The other token would begin with a letter inside the first one.
        rw [token_eq, List.cons_append] at htoken
        have hmem : d ∈ mark.tail ++ s.digits index := by
          rw [(List.cons.inj htoken).2]
          exact List.mem_append_right _ List.mem_cons_self
        rw [token_eq, List.cons_append, List.cons_append] at hds
        exact absurd (List.cons.inj hds).1.symm (ne_of_mem_token_tail hmem)

/-- A token stands at the start of a text, or behind the token there. -/
theorem stands_token_append {index : Nat} (hi : index < s.count) (pre rest : List Char)
    (o : Occurrence) : s.Stands pre (s.token index ++ rest) o ↔
      o = ⟨index, byteSize pre, byteSize pre + s.tokenLength⟩ ∨
        s.Stands (pre ++ s.token index) rest o := by
  constructor
  · rintro ⟨ho, as, bs, h, hstart, hstop⟩
    rcases append_token_cases hi ho h with ⟨rfl, hindex⟩ | ⟨ds, rfl, hrest⟩
    · rw [List.append_nil] at hstart
      rw [hstart] at hstop
      cases o
      exact .inl (by congr)
    · exact .inr ⟨ho, ds, bs, hrest, by rw [hstart, List.append_assoc], hstop⟩
  · rintro (rfl | ⟨ho, ds, bs, rfl, hstart, hstop⟩)
    · exact ⟨hi, [], rest, rfl, by rw [List.append_nil], rfl⟩
    · exact ⟨ho, s.token index ++ ds, bs, by rw [List.append_assoc],
        by rw [hstart, List.append_assoc], hstop⟩

theorem stands_cons {c : Char} {cs : List Char} (h : s.tokenAt? (c :: cs) = none)
    (pre : List Char) (o : Occurrence) :
    s.Stands pre (c :: cs) o ↔ s.Stands (pre ++ [c]) cs o := by
  constructor
  · rintro ⟨ho, as, bs, hcs, hstart, hstop⟩
    cases as with
    | nil => simp [tokenAt?_eq_some_iff.2 ⟨ho, hcs⟩] at h
    | cons a as =>
      obtain ⟨rfl, rfl⟩ := List.cons.inj hcs
      exact ⟨ho, as, bs, rfl, by rw [hstart, List.append_assoc]; rfl, hstop⟩
  · rintro ⟨ho, as, bs, rfl, hstart, hstop⟩
    exact ⟨ho, c :: as, bs, rfl, by rw [hstart, List.append_assoc]; rfl, hstop⟩

/-! ## Finding -/

/-- The occurrences of a cut are the tokens that stand in the text. -/
theorem mem_occurrences_cut (pre cs : List Char) (o : Occurrence) :
    o ∈ s.occurrences (byteSize (pre ++ (s.cut cs).head)) (s.cut cs).tail ↔ s.Stands pre cs o := by
  fun_induction cut s cs generalizing pre with
  | case1 cs index rest h more ih =>
    obtain ⟨hi, rfl⟩ := tokenAt?_eq_some_iff.1 h
    have hmore := ih (pre ++ s.token index)
    rw [byteSize_append, byteSize_append pre, byteSize_token hi] at hmore
    rw [stands_token_append hi, ← hmore, List.append_nil, occurrences, List.mem_cons]
  | case2 =>
    simp [occurrences, not_stands_nil]
  | case3 c cs h more ih =>
    rw [stands_cons h, ← ih (pre ++ [c]), List.append_assoc]
    rfl

/-- Tokens are found behind the offset, and all of one length. -/
theorem stop_of_mem_occurrences {offset : Nat} {tail : List (Nat × List Char)} {o : Occurrence}
    (h : o ∈ s.occurrences offset tail) : offset ≤ o.start ∧ o.stop = o.start + s.tokenLength := by
  induction tail generalizing offset with
  | nil => simp [occurrences] at h
  | cons e tail ih =>
    rw [occurrences] at h
    rcases List.mem_cons.1 h with rfl | h
    · exact ⟨Nat.le_refl _, rfl⟩
    · obtain ⟨hle, hstop⟩ := ih h
      exact ⟨by omega, hstop⟩

/-- The tokens that are found do not overlap. -/
theorem pairwise_occurrences (offset : Nat) (tail : List (Nat × List Char)) :
    (s.occurrences offset tail).Pairwise fun o p => o.stop ≤ p.start := by
  induction tail generalizing offset with
  | nil => exact .nil
  | cons e tail ih =>
    rw [occurrences]
    refine List.pairwise_cons.2 ⟨fun p hp => ?_, ih _⟩
    have hle := (stop_of_mem_occurrences hp).1
    exact Nat.le_trans (Nat.le_add_right _ _) hle

/-- A token is found where it stands, and nowhere else. -/
theorem mem_find_iff {text : String} {o : Occurrence} :
    o ∈ s.find text ↔ s.Stands [] text.toList o := mem_occurrences_cut [] text.toList o

/-- The tokens that are found are the ranges of a text that are one token as a whole. -/
theorem mem_find_iff_slice? {text : String} {o : Occurrence} :
    o ∈ s.find text ↔ ∃ content, slice? text.toList o.start o.stop = some content ∧
      s.index? (String.ofList content) = some o.index := by
  simp only [mem_find_iff, index?_eq_some_iff, String.toList_ofList, slice?_eq_some_iff]
  constructor
  · rintro ⟨hi, as, bs, htext, hstart, hstop⟩
    refine ⟨s.token o.index, ⟨as, bs, htext, hstart, ?_⟩, hi, rfl⟩
    rw [hstop, hstart, List.nil_append, byteSize_append, byteSize_token hi]
  · rintro ⟨-, ⟨as, bs, htext, hstart, hstop⟩, hi, rfl⟩
    refine ⟨hi, as, bs, htext, hstart, ?_⟩
    rw [hstop, hstart, byteSize_append, byteSize_token hi]

/-- The tokens are found from the left, and none reaches into the next one. -/
theorem pairwise_find (text : String) :
    (s.find text).Pairwise fun o p => o.stop ≤ p.start := pairwise_occurrences _ _

theorem start_lt_stop {text : String} {o : Occurrence} (h : o ∈ s.find text) :
    o.start < o.stop := by
  have hpos : 0 < s.tokenLength := by
    have hmark : mark.length = 18 := by decide
    rw [tokenLength, hmark]
    omega
  rw [(stop_of_mem_occurrences h).2]
  omega

/-- A text contains a token just if one is found. -/
theorem contains_iff {text : String} : s.contains text = true ↔ ∃ o, o ∈ s.find text := by
  rw [contains, find]
  cases (s.cut text.toList).tail with
  | nil => simp [occurrences]
  | cons e tail => simp [occurrences]

end SlotMarkup.Slots
