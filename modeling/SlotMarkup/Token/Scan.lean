import SlotMarkup.Token.Basic
import SlotMarkup.Token.Error

/-!
# Scans

A *scan* is the outcome of reading some tokens: the tokens and the place after
them, or what is wrong. Every reader of the markup is a function from a place to
a scan, and all that follows a first reading is a scan put after its tokens
(`Scan.after`).
-/

namespace SlotMarkup

/-- Tokens and the place after them. -/
abbrev Scan := Except ScanError (List Token × Place)

/-- The scan `s` with some tokens before its own. -/
def Scan.after (tokens : List Token) (s : Scan) : Scan := s.map fun r => (tokens ++ r.1, r.2)

@[simp] theorem Scan.after_ok (tokens ts : List Token) (p : Place) :
    Scan.after tokens (.ok (ts, p)) = .ok (tokens ++ ts, p) := rfl

@[simp] theorem Scan.after_error (tokens : List Token) (e : ScanError) :
    Scan.after tokens (.error e) = .error e := rfl

/-- A mapped result comes from a result. -/
theorem map_eq_ok_iff {ε α β : Type} {f : α → β} {e : Except ε α} {b : β} :
    e.map f = .ok b ↔ ∃ a, e = .ok a ∧ f a = b := by
  cases e <;> simp [Except.map]

/-- Mapping changes no error. -/
theorem map_eq_error_iff {ε α β : Type} {f : α → β} {r : Except ε α} {e : ε} :
    r.map f = .error e ↔ r = .error e := by
  cases r <;> simp [Except.map]

/-- Of two steps one after the other there is a result only if both have one. -/
theorem bind_eq_ok_iff {ε α β : Type} {f : α → Except ε β} {e : Except ε α} {b : β} :
    e.bind f = .ok b ↔ ∃ a, e = .ok a ∧ f a = .ok b := by
  cases e <;> simp [Except.bind]

/-- The tokens read last stand behind those read before. -/
theorem Scan.after_eq_ok_iff {tokens ts : List Token} {s : Scan} {p : Place} :
    Scan.after tokens s = .ok (ts, p) ↔ ∃ us, s = .ok (us, p) ∧ tokens ++ us = ts := by
  simp [Scan.after, map_eq_ok_iff]

end SlotMarkup
