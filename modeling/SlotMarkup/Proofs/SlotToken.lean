import Mathlib.Algebra.GroupWithZero.Nat
import SlotMarkup.Slots

/-!
# The tokens of slots

The writer and the reader of tokens agree on one grammar: a text starts with a
token, for the reader, exactly if it starts with what the writer writes for a
slot of the template (`tokenAt?_eq_some_iff`). This rests on numbers of one
width: a slot has exactly one number in `Slots.width` digits
(`readIndex?_eq_some_iff`).

No token starts inside another one, as the first letter of the reserved word
occurs nowhere else in a token (`tokenAt?_eq_none_of_ne`).
-/

namespace SlotMarkup.Slots

variable {s : Slots}

/-! ## Numbers of one width -/

/-- A larger number has no fewer digits. -/
theorem length_toDigits_mono {m n : Nat} (h : m ≤ n) :
    (Nat.toDigits 10 m).length ≤ (Nat.toDigits 10 n).length := by
  rw [Nat.length_toDigits_le_iff (by decide) Nat.length_toDigits_pos]
  exact Nat.lt_of_le_of_lt h
    ((Nat.length_toDigits_le_iff (by decide) Nat.length_toDigits_pos).1 (Nat.le_refl _))

/-- All slots have indices of the same width. -/
theorem length_digits {index : Nat} (h : index < s.count) : (s.digits index).length = s.width := by
  have := length_toDigits_mono (m := index) (n := s.count - 1) (by omega)
  rw [digits, List.length_append, List.length_replicate, width]
  omega

/-- An index is written in digits alone. -/
theorem isDigit_of_mem_digits {index : Nat} {c : Char} (h : c ∈ s.digits index) :
    c.isDigit = true := by
  rw [digits, List.mem_append, List.mem_replicate] at h
  rcases h with ⟨_, rfl⟩ | h
  · rfl
  · exact Nat.isDigit_of_mem_toDigits (by decide) (by decide) h

/-- The digits of an index are read as the index. -/
@[simp] theorem ofDigitChars_digits (index : Nat) :
    Nat.ofDigitChars 10 (s.digits index) 0 = index := by
  rw [digits, Nat.ofDigitChars_append, Nat.ofDigitChars_replicate_zero, Nat.mul_zero,
    Nat.ofDigitChars_ten_toDigits]

theorem digit_value_lt {c : Char} (h : c.isDigit = true) : c.toNat - '0'.toNat < 10 := by
  simp only [Char.isDigit, Bool.and_eq_true, decide_eq_true_eq, UInt32.le_iff_toNat_le] at h
  have h9 : c.val.toNat ≤ 57 := h.2
  have : c.toNat = c.val.toNat := rfl
  have : '0'.toNat = 48 := rfl
  omega

/-- As many digits can say no more than the next power of ten. -/
theorem ofDigitChars_lt {ds : List Char} (h : ∀ c ∈ ds, c.isDigit = true) :
    Nat.ofDigitChars 10 ds 0 < 10 ^ ds.length := by
  induction ds with
  | nil => simp
  | cons c ds ih =>
    have hc := digit_value_lt (h c List.mem_cons_self)
    have hds := ih fun d hd => h d (List.mem_cons_of_mem _ hd)
    rw [Nat.ofDigitChars_cons, Nat.ofDigitChars_eq_ofDigitChars_zero, List.length_cons,
      Nat.pow_succ, Nat.mul_zero, Nat.zero_add]
    calc 10 ^ ds.length * (c.toNat - '0'.toNat) + Nat.ofDigitChars 10 ds 0
        < 10 ^ ds.length * (c.toNat - '0'.toNat) + 10 ^ ds.length := by omega
      _ = 10 ^ ds.length * (c.toNat - '0'.toNat + 1) := by rw [Nat.mul_add, Nat.mul_one]
      _ ≤ 10 ^ ds.length * 10 := Nat.mul_le_mul_left _ hc

/-- A digit is known by its value. -/
theorem toNat_eq_of_isDigit {c d : Char} (hc : c.isDigit = true) (hd : d.isDigit = true)
    (h : c.toNat - '0'.toNat = d.toNat - '0'.toNat) : c = d := by
  simp only [Char.isDigit, Bool.and_eq_true, decide_eq_true_eq, UInt32.le_iff_toNat_le] at hc hd
  have h1 : 48 ≤ c.val.toNat := hc.1
  have h2 : 48 ≤ d.val.toNat := hd.1
  have h3 : c.val.toNat - 48 = d.val.toNat - 48 := h
  exact Char.ext (UInt32.toNat_inj.1 (by omega))

/-- Two numbers of the same width and value are the same digits. -/
theorem eq_of_ofDigitChars_eq {ds es : List Char} (hl : ds.length = es.length)
    (hd : ∀ c ∈ ds, c.isDigit = true) (he : ∀ c ∈ es, c.isDigit = true)
    (h : Nat.ofDigitChars 10 ds 0 = Nat.ofDigitChars 10 es 0) : ds = es := by
  induction ds generalizing es with
  | nil => exact (List.length_eq_zero_iff.1 hl.symm).symm
  | cons c ds ih =>
    cases es with
    | nil => simp at hl
    | cons e es =>
      have hl' : ds.length = es.length := Nat.succ.inj hl
      have hd' : ∀ x ∈ ds, x.isDigit = true := fun x hx => hd x (List.mem_cons_of_mem _ hx)
      have he' : ∀ x ∈ es, x.isDigit = true := fun x hx => he x (List.mem_cons_of_mem _ hx)
      have hlt := ofDigitChars_lt hd'
      have hlt' := ofDigitChars_lt he'
      rw [Nat.ofDigitChars_cons, Nat.ofDigitChars_cons, Nat.ofDigitChars_eq_ofDigitChars_zero,
        Nat.ofDigitChars_eq_ofDigitChars_zero (l := es), Nat.mul_zero, Nat.zero_add,
        Nat.zero_add, ← hl'] at h
      rw [← hl'] at hlt'
      -- The first digit is the quotient by a power of ten, the others are the remainder.
      have hpos : 0 < 10 ^ ds.length := Nat.pow_pos (by decide)
      have hq := congrArg (· / 10 ^ ds.length) h
      have hr := congrArg (· % 10 ^ ds.length) h
      simp only [Nat.mul_add_div hpos, Nat.div_eq_of_lt hlt, Nat.div_eq_of_lt hlt',
        Nat.add_zero] at hq
      simp only [Nat.mul_add_mod, Nat.mod_eq_of_lt hlt, Nat.mod_eq_of_lt hlt'] at hr
      rw [ih hl' hd' he' hr, toNat_eq_of_isDigit (hd c List.mem_cons_self)
        (he e List.mem_cons_self) hq]

/-- The reader of numbers reads exactly what the writer writes. -/
theorem readIndex?_eq_some_iff {ds : List Char} {index : Nat} :
    s.readIndex? ds = some index ↔ index < s.count ∧ ds = s.digits index := by
  rw [readIndex?]
  constructor
  · intro h
    split at h
    · rename_i hw
      dsimp only at h
      split at h
      · rename_i hlt
        obtain rfl := Option.some.inj h
        refine ⟨hlt, eq_of_ofDigitChars_eq ?_ (List.all_eq_true.1 hw.2)
          (fun _ => isDigit_of_mem_digits) (ofDigitChars_digits _).symm⟩
        rw [hw.1, length_digits hlt]
      · simp at h
    · simp at h
  · rintro ⟨hlt, rfl⟩
    have hall : (s.digits index).all Char.isDigit = true :=
      List.all_eq_true.2 fun _ => isDigit_of_mem_digits
    simp [length_digits hlt, hall, hlt]

/-! ## Tokens -/

/-- All tokens are of the same length. -/
@[simp] theorem length_token {index : Nat} (h : index < s.count) :
    (s.token index).length = s.tokenLength := by
  rw [token, List.length_append, length_digits h, tokenLength]

/-- The reader of tokens reads exactly what the writer writes. -/
theorem tokenAt?_eq_some_iff {cs rest : List Char} {index : Nat} :
    s.tokenAt? cs = some (index, rest) ↔ index < s.count ∧ cs = s.token index ++ rest := by
  rw [tokenAt?]
  constructor
  · intro h
    split at h
    · rename_i hm
      obtain ⟨ds, rfl⟩ := List.isPrefixOf_iff_prefix.1 hm
      obtain ⟨i, hi, hr⟩ := Option.map_eq_some_iff.1 h
      obtain ⟨rfl, rfl⟩ := Prod.mk.inj hr
      rw [List.drop_left] at hi
      obtain ⟨hlt, htake⟩ := readIndex?_eq_some_iff.1 hi
      refine ⟨hlt, ?_⟩
      rw [token, List.append_assoc, ← htake, tokenLength, List.drop_append,
        List.drop_eq_nil_of_le (Nat.le_add_right _ _), Nat.add_sub_cancel_left, List.nil_append,
        List.take_append_drop]
    · simp at h
  · rintro ⟨hlt, rfl⟩
    -- What is written has the mark, then a number of the right width, then the rest.
    have hm : mark.isPrefixOf (s.token index ++ rest) = true := by
      rw [List.isPrefixOf_iff_prefix, token, List.append_assoc]
      exact List.prefix_append _ _
    have hd : ((s.token index ++ rest).drop mark.length).take s.width = s.digits index := by
      rw [token, List.append_assoc, List.drop_left, ← length_digits hlt, List.take_left]
    have hr : (s.token index ++ rest).drop s.tokenLength = rest := by
      rw [← length_token hlt, List.drop_left]
    rw [if_pos hm, hd, hr, readIndex?_eq_some_iff.2 ⟨hlt, rfl⟩, Option.map_some]

/-- A text that is one token as a whole is what the writer writes. -/
theorem index?_eq_some_iff {text : String} {index : Nat} :
    s.index? text = some index ↔ index < s.count ∧ text.toList = s.token index := by
  have hat := @tokenAt?_eq_some_iff s text.toList [] index
  rw [List.append_nil] at hat
  rw [← hat, index?]
  constructor
  · intro h
    split at h
    · obtain rfl := Option.some.inj h
      assumption
    · simp at h
  · intro h
    simp [h]

/-- The token of a slot is read as the slot. -/
theorem index?_token {index : Nat} (h : index < s.count) :
    s.index? (String.ofList (s.token index)) = some index :=
  index?_eq_some_iff.2 ⟨h, String.toList_ofList⟩

/-- Only the token of a slot is read as the slot. -/
theorem eq_token_of_index? {text : String} {index : Nat} (h : s.index? text = some index) :
    index < s.count ∧ text = String.ofList (s.token index) := by
  obtain ⟨hlt, htext⟩ := index?_eq_some_iff.1 h
  exact ⟨hlt, by rw [← htext, String.ofList_toList]⟩

/-- What is read as no slot is the token of none. -/
theorem index?_eq_none_iff {text : String} :
    s.index? text = none ↔ ∀ index < s.count, text ≠ String.ofList (s.token index) := by
  rw [Option.eq_none_iff_forall_ne_some]
  refine forall_congr' fun index => ?_
  rw [Ne, index?_eq_some_iff, not_and, Ne, ← String.toList_inj, String.toList_ofList]

/-! ## No overlaps -/

theorem mark_eq : mark = 'e' :: mark.tail := rfl

/-- The first letter of the mark stands in it once. A token can therefore start nowhere in the
    mark of another. -/
theorem ne_of_mem_mark_tail {c : Char} (h : c ∈ mark.tail) : c ≠ 'e' := by
  have hall : mark.tail.all (· != 'e') = true := by decide
  simpa using List.all_eq_true.1 hall c h

theorem token_eq (index : Nat) : s.token index = 'e' :: (mark.tail ++ s.digits index) := rfl

/-- A token starts with the first letter of its mark. -/
theorem tokenAt?_eq_none_of_ne {c : Char} (h : c ≠ 'e') (cs : List Char) :
    s.tokenAt? (c :: cs) = none := by
  rw [Option.eq_none_iff_forall_ne_some]
  rintro ⟨index, rest⟩ ht
  have := (tokenAt?_eq_some_iff.1 ht).2
  rw [token_eq, List.cons_append] at this
  exact h (List.cons.inj this).1

@[simp] theorem tokenAt?_nil : s.tokenAt? [] = none := rfl

/-- A token is found whatever follows it. -/
@[simp] theorem tokenAt?_token_append {index : Nat} (h : index < s.count) (cs : List Char) :
    s.tokenAt? (s.token index ++ cs) = some (index, cs) :=
  tokenAt?_eq_some_iff.2 ⟨h, rfl⟩

/-! ## Taking a text apart -/

/-- Where a token is found, a text is cut. -/
theorem cut_of_tokenAt? {cs rest : List Char} {index : Nat}
    (h : s.tokenAt? cs = some (index, rest)) :
    s.cut cs = ⟨[], (index, (s.cut rest).head) :: (s.cut rest).tail⟩ := by
  rw [cut]
  split
  · rename_i h'
    obtain ⟨rfl, rfl⟩ := Prod.mk.inj (Option.some.inj (h.symm.trans h'))
    rfl
  · rename_i h'
    simp [h] at h'

/-- Where no token is found, the piece goes on. -/
theorem cut_cons {c : Char} {cs : List Char} (h : s.tokenAt? (c :: cs) = none) :
    s.cut (c :: cs) = ⟨c :: (s.cut cs).head, (s.cut cs).tail⟩ := by
  rw [cut]
  split
  · rename_i h'
    simp [h] at h'
  · rfl

@[simp] theorem cut_nil : s.cut [] = ⟨[], []⟩ := by
  rw [cut]
  rfl

/-- A text is cut behind a token it starts with. -/
@[simp] theorem cut_token_append {index : Nat} (h : index < s.count) (cs : List Char) :
    s.cut (s.token index ++ cs) = ⟨[], (index, (s.cut cs).head) :: (s.cut cs).tail⟩ :=
  cut_of_tokenAt? (tokenAt?_token_append h cs)

/-- The pieces of a cut, with a word for every slot between them. -/
def Cut.join (word : Nat → List Char) (c : Cut) : List Char :=
  c.head ++ c.tail.flatMap fun e => word e.1 ++ e.2

/-- Cutting loses nothing: a text is its pieces with the tokens between them. -/
theorem join_cut (cs : List Char) : (s.cut cs).join s.token = cs := by
  fun_induction cut s cs with
  | case1 cs index rest h more ih =>
    obtain ⟨-, rfl⟩ := tokenAt?_eq_some_iff.1 h
    rw [Cut.join] at ih ⊢
    rw [List.flatMap_cons, List.nil_append, List.append_assoc, ih]
  | case2 => rfl
  | case3 c cs h more ih =>
    rw [Cut.join] at ih ⊢
    rw [List.cons_append, ih]

/-- Only slots of the template are found. -/
theorem lt_of_mem_cut {cs : List Char} {e : Nat × List Char} (h : e ∈ (s.cut cs).tail) :
    e.1 < s.count := by
  fun_induction cut s cs with
  | case1 cs index rest ht more ih =>
    rcases List.mem_cons.1 h with rfl | h
    · exact (tokenAt?_eq_some_iff.1 ht).1
    · exact ih h
  | case2 => simp at h
  | case3 c cs ht more ih => exact ih h

end SlotMarkup.Slots
