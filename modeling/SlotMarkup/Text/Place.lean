import SlotMarkup.Span
import SlotMarkup.Text.Blank
import SlotMarkup.Text.Lines

/-!
# Places in a text

A `Place` is a point between two characters of a text: the number of bytes
before it and the characters after it. Reading a text moves from place to place,
always by dropping characters (`Place.drop`), so that what was read is the text
between two places (`Place.upTo`) and where it was read is their span
(`Place.spanTo`).

A place `q` is *reached* from `p` if it is `p` less some characters
(`Place.Reaches`).

* `Reaches.append_upTo`: what lies between two places and what follows the
  second is what follows the first;
* `Reaches.offset_eq`: offsets grow by the bytes in between;
* `Reaches.trans`, `reaches_drop`, `reaches_skip`: moves compose.
-/

namespace SlotMarkup

/-- The number of bytes of a text in UTF-8. -/
def byteSize (cs : List Char) : Nat := cs.foldr (fun c n => c.utf8Size + n) 0

@[simp] theorem byteSize_nil : byteSize [] = 0 := rfl

@[simp] theorem byteSize_cons (c : Char) (cs : List Char) :
    byteSize (c :: cs) = c.utf8Size + byteSize cs := rfl

/-- Bytes of texts add up. -/
@[simp] theorem byteSize_append (cs ds : List Char) :
    byteSize (cs ++ ds) = byteSize cs + byteSize ds := by
  induction cs with
  | nil => simp
  | cons c cs ih => simp [ih, Nat.add_assoc]

/-- A point between two characters of a text. -/
structure Place where
  /-- The number of bytes before it. -/
  offset : Nat
  /-- The characters after it. -/
  rest : List Char
  deriving DecidableEq, Repr

namespace Place

/-- The start of a text. -/
def ofText (text : String) : Place := ⟨0, text.toList⟩

/-- The place `n` characters later, or the end of the text. -/
def drop (p : Place) (n : Nat) : Place := ⟨p.offset + byteSize (p.rest.take n), p.rest.drop n⟩

/-- The place after the run of characters that satisfy `f`. -/
def skip (p : Place) (f : Char → Bool) : Place := p.drop (p.rest.takeWhile f).length

/-- The end of the text. -/
def final (p : Place) : Place := p.drop p.rest.length

/-- The text between two places, the second one reached from the first. -/
def upTo (p q : Place) : List Char := p.rest.take (p.rest.length - q.rest.length)

/-- The span between two places. -/
def spanTo (p q : Place) : Span := Span.ofRange p.offset q.offset

/-- The empty span at a place. -/
def point (p : Place) : Span := p.spanTo p

/-! ## Lines -/

/-- The rest of the current line. A carriage return before its line feed, or
    before the end of the text, is a part of the line break. -/
def line (p : Place) : List Char :=
  let cs := p.rest.takeWhile (· != '\n')
  if cs.getLast? = some '\r' then cs.dropLast else cs

/-- The end of the current line, before its line break. -/
def lineEnd (p : Place) : Place := p.drop p.line.length

/-- The start of the next line, or the end of the text. -/
def nextLine (p : Place) : Place := p.drop ((p.rest.takeWhile (· != '\n')).length + 1)

/-- The width of the indentation at a place. -/
def indent (p : Place) : Nat := indentWidth p.rest

/-! ## Moving on -/

/-- `q` is `p` or a later place of the same text. -/
def Reaches (p q : Place) : Prop := ∃ n, q = p.drop n

@[simp] theorem rest_drop (p : Place) (n : Nat) : (p.drop n).rest = p.rest.drop n := rfl

@[simp] theorem offset_drop (p : Place) (n : Nat) :
    (p.drop n).offset = p.offset + byteSize (p.rest.take n) := rfl

@[simp] theorem drop_zero (p : Place) : p.drop 0 = p := by simp [drop]

/-- Going on twice is going on once. -/
theorem drop_drop (p : Place) (m n : Nat) : (p.drop m).drop n = p.drop (m + n) := by
  simp [drop, List.take_add, Nat.add_assoc]

/-- Going on leaves no more of the text. -/
theorem length_drop_le (p : Place) (n : Nat) : (p.drop n).rest.length ≤ p.rest.length := by
  simp

theorem reaches_drop (p : Place) (n : Nat) : p.Reaches (p.drop n) := ⟨n, rfl⟩

/-- Skipping characters moves on. -/
theorem reaches_skip (p : Place) (f : Char → Bool) : p.Reaches (p.skip f) := ⟨_, rfl⟩

/-- The end of a line is reached from it. -/
theorem reaches_lineEnd (p : Place) : p.Reaches p.lineEnd := ⟨_, rfl⟩

/-- The next line is later in the text. -/
theorem reaches_nextLine (p : Place) : p.Reaches p.nextLine := ⟨_, rfl⟩

@[simp] theorem Reaches.refl (p : Place) : p.Reaches p := ⟨0, p.drop_zero.symm⟩

/-- What is reached from a later place is reached. -/
theorem Reaches.trans {p q r : Place} (h : p.Reaches q) (k : q.Reaches r) : p.Reaches r := by
  obtain ⟨m, rfl⟩ := h
  obtain ⟨n, rfl⟩ := k
  exact ⟨m + n, drop_drop p m n⟩

/-- The later a place, the less text follows it. -/
theorem Reaches.length_le {p q : Place} (h : p.Reaches q) : q.rest.length ≤ p.rest.length := by
  obtain ⟨n, rfl⟩ := h
  exact length_drop_le p n

/-- The text behind a place is what lies up to a later one, and what lies behind that. -/
theorem Reaches.append_upTo {p q : Place} (h : p.Reaches q) : p.upTo q ++ q.rest = p.rest := by
  obtain ⟨n, rfl⟩ := h
  rw [upTo, rest_drop, List.length_drop]
  rcases Nat.le_total n p.rest.length with hn | hn
  · rw [Nat.sub_sub_self hn, List.take_append_drop]
  · simp [List.drop_eq_nil_of_le hn, Nat.sub_eq_zero_of_le hn]

/-- An offset counts the bytes, so it grows by those that lie in between. -/
theorem Reaches.offset_eq {p q : Place} (h : p.Reaches q) :
    q.offset = p.offset + byteSize (p.upTo q) := by
  obtain ⟨n, rfl⟩ := h
  rw [upTo, rest_drop, offset_drop, List.length_drop]
  rcases Nat.le_total n p.rest.length with hn | hn
  · rw [Nat.sub_sub_self hn]
  · rw [Nat.sub_eq_zero_of_le hn, Nat.sub_zero, List.take_length, List.take_of_length_le hn]

/-- Dropping a character from a text that has one moves on. -/
theorem length_drop_lt {p : Place} {n : Nat} (hp : p.rest ≠ []) (hn : 0 < n) :
    (p.drop n).rest.length < p.rest.length := by
  have := List.length_pos_iff.2 hp
  rw [rest_drop, List.length_drop]
  omega

/-- At least a character is passed on the way to the next line. Readers that go from line to line
    come to an end by this. -/
theorem nextLine_lt {p : Place} (hp : p.rest ≠ []) : p.nextLine.rest.length < p.rest.length :=
  length_drop_lt hp (Nat.succ_pos _)

end Place

end SlotMarkup
