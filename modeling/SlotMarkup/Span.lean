/-!
# Spans

A *span* is a range of bytes of a template's text, from `start` up to and
without `stop`. Offsets are kept in 32 bits: one past `Span.limit` is recorded
as the limit itself (`Span.ofRange`), so that a span of an enormous text still
names a place of it, if not the right one.

* `ofRange_of_le`: below the limit a span holds the offsets it was made from;
* `merge_comm`, `merge_assoc`: the merge of spans, the least span covering
  them, does not depend on their order.
-/

namespace SlotMarkup

/-- A range of bytes of a text. -/
structure Span where
  /-- The offset of the first byte. -/
  start : Nat
  /-- The offset after the last byte. -/
  stop : Nat
  deriving DecidableEq, Repr, Inhabited

namespace Span

/-- The largest offset a span can hold. -/
def limit : Nat := 4294967295

/-- The span from one offset to another, each cut off at the limit. -/
def ofRange (start stop : Nat) : Span := ⟨min start limit, min stop limit⟩

/-- The empty span at an offset. -/
def point (offset : Nat) : Span := ⟨offset, offset⟩

/-- The span of what was not read from a text. -/
def nowhere : Span := ⟨0, 0⟩

/-- The number of bytes. -/
def length (s : Span) : Nat := s.stop - s.start

/-- Whether the span holds no byte. -/
def isEmpty (s : Span) : Bool := s.start == s.stop

/-- The least span that covers both. -/
def merge (s t : Span) : Span := ⟨min s.start t.start, max s.stop t.stop⟩

/-- Two dots between the offsets. -/
def toText (s : Span) : String := toString s.start ++ ".." ++ toString s.stop

/-- Offsets within the limit are kept as they are. -/
theorem ofRange_of_le {start stop : Nat} (hs : start ≤ limit) (ht : stop ≤ limit) :
    ofRange start stop = ⟨start, stop⟩ := by
  simp [ofRange, Nat.min_eq_left hs, Nat.min_eq_left ht]

/-- The hull of two spans is the same from both sides. -/
theorem merge_comm (s t : Span) : s.merge t = t.merge s := by
  simp [merge, Nat.min_comm, Nat.max_comm]

/-- Spans can be merged in any grouping. -/
theorem merge_assoc (s t u : Span) : (s.merge t).merge u = s.merge (t.merge u) := by
  simp [merge, Nat.min_assoc, Nat.max_assoc]

@[simp] theorem merge_self (s : Span) : s.merge s = s := by simp [merge]

end Span

end SlotMarkup
