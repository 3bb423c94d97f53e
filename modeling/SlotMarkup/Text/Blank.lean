/-!
# Blanks

Two classes of characters count as blank. Within a line of markup it is the
ASCII whitespace alone (`isBlank`), as everything else is content. Around a
whole template, and before the text of a comment, it is every character with
the Unicode property `White_Space` (`isSpace`), as authors paste what their
editor gives them.

* `isSpace_of_isBlank`: the second class contains the first.
-/

namespace SlotMarkup

/-- ASCII whitespace: space, tab, line feed, form feed and carriage return. -/
def isBlank (c : Char) : Bool :=
  c == ' ' || c == '\t' || c == '\n' || c == '\x0c' || c == '\r'

/-- The ranges of code points with the property `White_Space`, in order. -/
def spaceRanges : List (Nat × Nat) :=
  [(0x09, 0x0D), (0x20, 0x20), (0x85, 0x85), (0xA0, 0xA0), (0x1680, 0x1680), (0x2000, 0x200A),
   (0x2028, 0x2029), (0x202F, 0x202F), (0x205F, 0x205F), (0x3000, 0x3000)]

/-- The characters with the property `White_Space`. -/
def isSpace (c : Char) : Bool := spaceRanges.any fun r => r.1 ≤ c.toNat && c.toNat ≤ r.2

/-- Whether a text is made of ASCII whitespace alone. -/
def isBlankText (cs : List Char) : Bool := cs.all isBlank

/-- Without the leading spaces. -/
def trimLeft (cs : List Char) : List Char := cs.dropWhile isSpace

/-- Without the trailing elements that satisfy `f`. -/
def dropTrailing {α : Type} (f : α → Bool) (l : List α) : List α := (l.reverse.dropWhile f).reverse

/-- Without the leading and the trailing spaces. -/
def trim (cs : List Char) : List Char := dropTrailing isSpace (trimLeft cs)

/-- Every blank of ASCII has the property `White_Space`. -/
theorem isSpace_of_isBlank {c : Char} (h : isBlank c = true) : isSpace c = true := by
  simp only [isBlank, Bool.or_eq_true, beq_iff_eq] at h
  rcases h with (((rfl | rfl) | rfl) | rfl) | rfl <;> rfl

/-- What `dropTrailing` drops is a run of elements satisfying `f`. -/
theorem dropTrailing_append_takeWhile {α : Type} (f : α → Bool) (l : List α) :
    dropTrailing f l ++ (l.reverse.takeWhile f).reverse = l := by
  rw [dropTrailing, ← List.reverse_append, List.takeWhile_append_dropWhile, List.reverse_reverse]

/-- A tail of elements that are all dropped makes no difference. -/
theorem dropTrailing_append_all {α : Type} {f : α → Bool} (as : List α) {bs : List α}
    (h : ∀ b ∈ bs, f b = true) : dropTrailing f (as ++ bs) = dropTrailing f as := by
  rw [dropTrailing, dropTrailing, List.reverse_append, List.dropWhile_append_of_pos]
  exact fun b hb => h b (List.mem_reverse.1 hb)

theorem dropTrailing_append_singleton {α : Type} (f : α → Bool) (l : List α) (a : α) :
    dropTrailing f (l ++ [a]) = if f a then dropTrailing f l else l ++ [a] := by
  rw [dropTrailing, List.reverse_append, List.reverse_singleton, List.singleton_append,
    List.dropWhile_cons]
  split
  · rfl
  · rw [List.reverse_cons, List.reverse_reverse]

/-- Before an element that is not dropped nothing is. -/
theorem dropTrailing_cons {α : Type} {f : α → Bool} {a : α} (h : f a = false) (l : List α) :
    dropTrailing f (a :: l) = a :: dropTrailing f l := by
  simp only [dropTrailing, List.reverse_cons, List.dropWhile_append]
  split
  · rename_i he
    simp [List.isEmpty_iff.1 he, h]
  · simp

end SlotMarkup
