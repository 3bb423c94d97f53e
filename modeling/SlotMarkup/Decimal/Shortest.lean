/-!
# Shortest decimals

A double stands for all the reals that round to it. Written as a decimal, it
needs only as many digits as it takes to land among these, and of the decimals
with that many digits the one nearest to the double itself is chosen
(`Magnitude.shortest`). Two of them can be equally near; which one is taken then
is up to the caller (`Tie`).

All comparisons are exact: what rounds to a double is measured on the grid of the
multiples of a power of ten, both scaled to whole numbers (`Window`).
-/

namespace SlotMarkup

/-- The decimal number `coefficient * 10 ^ exponent`. -/
structure Decimal where
  coefficient : Nat
  exponent : Int
  deriving DecidableEq, Repr

/-- Which of two equally near decimals is taken. -/
inductive Tie
  /-- The greater one. -/
  | up
  /-- The one whose coefficient is even. -/
  | even
  deriving DecidableEq, Repr

/-- The magnitude `significand * 2 ^ exponent` of a finite double. -/
structure Magnitude where
  significand : Nat
  exponent : Int
  /-- Whether the double below is only half as far away as the one above, as
      it is below a power of two. -/
  narrow : Bool
  deriving DecidableEq, Repr

/-- The reals that round to a double, on a scale that makes whole numbers of all
    of them. -/
structure Window where
  low : Nat
  /-- The double itself. -/
  value : Nat
  high : Nat
  /-- Whether the ends round to the double too. -/
  closed : Bool
  /-- The step of the decimal grid. -/
  step : Nat
  deriving DecidableEq, Repr

namespace Window

/-- Whether a multiple of the step lies in the window. -/
def covers (w : Window) (c : Nat) : Bool :=
  let d := c * w.step
  if w.closed then w.low ≤ d && d ≤ w.high else w.low < d && d < w.high

/-- The multiple of the step that is nearest to the double, if one lies in the
    window. -/
def nearest? (w : Window) (tie : Tie) : Option Nat :=
  let below := w.value / w.step
  match w.covers below, w.covers (below + 1) with
  | false, false => none
  | true, false => some below
  | false, true => some (below + 1)
  | true, true =>
    let rest := 2 * (w.value % w.step)
    if rest < w.step then some below
    else if w.step < rest then some (below + 1)
    else match tie with
      | .up => some (below + 1)
      | .even => some (if below % 2 = 0 then below else below + 1)

end Window

namespace Magnitude

/-- The magnitude in the low 63 bits of a finite double. -/
def ofBits (bits : Nat) : Magnitude :=
  let fraction : Nat := bits % Nat.pow 2 52
  let biased : Nat := bits / Nat.pow 2 52 % Nat.pow 2 11
  if biased = 0 then ⟨fraction, -1074, false⟩
  else ⟨Nat.pow 2 52 + fraction, (biased : Int) - 1075, fraction = 0 && 1 < biased⟩

/-- The reals that round to `m` on the grid of the multiples of `10 ^ x`. They reach
    halfway to the neighbours of `m`, and halfway itself belongs to the even
    significand. The unit is a quarter of the last place of `m`. -/
def window (m : Magnitude) (x : Int) : Window :=
  let p := m.exponent - 2
  let unit := Nat.pow 2 p.toNat * Nat.pow 10 (-x).toNat
  { low := (4 * m.significand - if m.narrow then 1 else 2) * unit
    value := 4 * m.significand * unit
    high := (4 * m.significand + 2) * unit
    closed := m.significand % 2 = 0
    step := Nat.pow 10 x.toNat * Nat.pow 2 (-p).toNat }

/-- An exponent `x` for which `m` is at most `10 ^ x`, and more than `10 ^ (x - 2)`. -/
def scale (m : Magnitude) : Int :=
  let num := m.significand * Nat.pow 2 m.exponent.toNat
  let den := Nat.pow 2 (-m.exponent).toNat
  if den ≤ num then (Nat.toDigits 10 (num / den)).length
  else 1 - ((Nat.toDigits 10 (den / num)).length : Int)

/-- The shortest decimal that rounds to `m`: seventeen digits are always enough. -/
def shortest (m : Magnitude) (tie : Tie) : Decimal :=
  let top := m.scale
  ((List.range 18).findSome? fun (n : Nat) =>
    ((m.window (top - n)).nearest? tie).map fun c => ⟨c, top - n⟩).getD ⟨0, 0⟩

end Magnitude

end SlotMarkup
