import SlotMarkup.Text.Place

/-!
# Slots

The values of a template stand in its *slots*, the gaps between its fragments.
So that the template can be read as one text, every slot is written as a
*token*: a reserved word and the number of the slot. All numbers of a template
have the same width, padded with zeros, so a digit that the author writes right
after a slot is never taken for a digit of the number.

`Slots` is the grammar of the tokens of one template, `Slots.encode` writes
them, and `Slots.cut` takes a text apart at them.

* `cut` takes a text apart from the left, and ends because what follows a token
  is shorter than what it starts (`tokenAt?_length_lt`).
-/

namespace SlotMarkup

/-- The slots of a template, numbered from zero. -/
structure Slots where
  /-- How many there are. -/
  count : Nat
  deriving DecidableEq, Repr

namespace Slots

/-- The slots of a template with these fragments: one between each two. -/
def ofFragments (fragments : List String) : Slots := ⟨fragments.length - 1⟩

/-! ## Writing tokens -/

/-- The reserved word at the start of every token. -/
def mark : List Char := "emjay_substitution".toList

/-- The number of digits of the largest slot number. -/
def width (s : Slots) : Nat := (Nat.toDigits 10 (s.count - 1)).length

/-- A slot number in `s.width` digits, or in more if it needs them. -/
def digits (s : Slots) (index : Nat) : List Char :=
  let ds := Nat.toDigits 10 index
  List.replicate (s.width - ds.length) '0' ++ ds

/-- The token of a slot. -/
def token (s : Slots) (index : Nat) : List Char := mark ++ s.digits index

/-- The length of the token of a numbered slot, in characters and in bytes. -/
def tokenLength (s : Slots) : Nat := mark.length + s.width

/-- The fragments with the tokens of `index`, `index + 1`, … between them. -/
def encodeFrom (s : Slots) (index : Nat) : List String → List Char
  | [] => []
  | [f] => f.toList
  | f :: g :: fs => f.toList ++ (s.token index ++ s.encodeFrom (index + 1) (g :: fs))

/-- The one text of a template: its fragments with a token in every gap. -/
def encode (s : Slots) (fragments : List String) : String :=
  String.ofList (s.encodeFrom 0 fragments)

/-! ## Reading tokens -/

/-- The slot that a number in exactly `s.width` digits names. -/
def readIndex? (s : Slots) (ds : List Char) : Option Nat :=
  if ds.length = s.width ∧ ds.all Char.isDigit then
    let index := Nat.ofDigitChars 10 ds 0
    if index < s.count then some index else none
  else
    none

/-- The slot whose token `cs` starts with, and what follows the token. -/
def tokenAt? (s : Slots) (cs : List Char) : Option (Nat × List Char) :=
  if mark.isPrefixOf cs then
    (s.readIndex? ((cs.drop mark.length).take s.width)).map fun index =>
      (index, cs.drop s.tokenLength)
  else
    none

/-- The slot that a text names if all of it is one token. -/
def index? (s : Slots) (text : String) : Option Nat :=
  match s.tokenAt? text.toList with
  | some (index, []) => some index
  | _ => none

/-- A token has characters, so that less text is left behind it. -/
theorem tokenAt?_length_lt {s : Slots} {cs rest : List Char} {index : Nat}
    (h : s.tokenAt? cs = some (index, rest)) : rest.length < cs.length := by
  unfold tokenAt? at h
  split at h
  · rename_i hm
    obtain ⟨_, _, hr⟩ := Option.map_eq_some_iff.1 h
    obtain ⟨-, rfl⟩ := Prod.mk.inj hr
    obtain ⟨ds, rfl⟩ := List.isPrefixOf_iff_prefix.1 hm
    have hl : mark.length = 18 := by decide
    simp only [List.length_drop, List.length_append, tokenLength]
    omega
  · simp at h

/-! ## Taking a text apart -/

/-- A text taken apart at its tokens: the piece before the first one, and every
    token's slot with the piece after it. -/
structure Cut where
  head : List Char
  tail : List (Nat × List Char)
  deriving DecidableEq, Repr

/-- Takes a text apart at its tokens, from the left. -/
def cut (s : Slots) (cs : List Char) : Cut :=
  match _h : s.tokenAt? cs with
  | some (index, rest) =>
    let more := s.cut rest
    ⟨[], (index, more.head) :: more.tail⟩
  | none =>
    match cs with
    | [] => ⟨[], []⟩
    | c :: cs =>
      let more := s.cut cs
      ⟨c :: more.head, more.tail⟩
termination_by cs.length
decreasing_by
  · exact tokenAt?_length_lt _h
  · simp

/-- A token found in a text: the slot and the range of bytes. -/
structure Occurrence where
  index : Nat
  start : Nat
  stop : Nat
  deriving DecidableEq, Repr

/-- The tokens of a text cut apart, the first of them at `offset`. -/
def occurrences (s : Slots) (offset : Nat) : List (Nat × List Char) → List Occurrence
  | [] => []
  | (index, piece) :: more =>
    let stop := offset + s.tokenLength
    ⟨index, offset, stop⟩ :: s.occurrences (stop + byteSize piece) more

/-- Every token in a text, from the left. -/
def find (s : Slots) (text : String) : List Occurrence :=
  let c := s.cut text.toList
  s.occurrences (byteSize c.head) c.tail

/-- Whether there is a token in a text. -/
def contains (s : Slots) (text : String) : Bool := !(s.cut text.toList).tail.isEmpty

end Slots

end SlotMarkup
