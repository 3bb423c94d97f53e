import SlotMarkup.Decimal.Shortest

/-!
# Positional numbers

A number is written positionally, never with an exponent: the digits of its
whole part and, after a point, those of its fraction. What two ways of writing
numbers differ in is a `NumberStyle`.
-/

namespace SlotMarkup

namespace Decimal

/-- The digits of the whole part and of the fraction. -/
def parts (d : Decimal) : List Char × List Char :=
  let ds := Nat.toDigits 10 d.coefficient
  let places := (-d.exponent).toNat
  if places < ds.length then
    let (whole, fraction) := ds.splitAt (ds.length - places)
    (whole ++ List.replicate d.exponent.toNat '0', fraction)
  else
    (['0'], List.replicate (places - ds.length) '0' ++ ds)

end Decimal

/-- The decisions in writing a number. -/
structure NumberStyle where
  /-- Which of two equally near shortest decimals is written. -/
  tie : Tie
  /-- What follows the whole part of a number without a fraction. -/
  integral : String
  /-- Whether negative zero has a sign. -/
  signedZero : Bool
  nan : String
  infinity : String
  negativeInfinity : String
  deriving DecidableEq, Repr

namespace NumberStyle

/-- Numbers in text: no fraction where there is none, and one zero. A tie goes up. -/
def display : NumberStyle := ⟨.up, "", false, "NaN", "Infinity", "-Infinity"⟩

/-- Numbers in JSON: always a fraction, and a sign on negative zero. A tie goes
    to the even coefficient, and what is not finite is `null`. -/
def json : NumberStyle := ⟨.even, ".0", true, "null", "null", "null"⟩

/-- A finite magnitude. -/
def magnitude (style : NumberStyle) (m : Magnitude) : String :=
  let (whole, fraction) := (m.shortest style.tie).parts
  String.ofList whole ++
    if fraction.isEmpty then style.integral else String.ofList ('.' :: fraction)

/-- A double. -/
def text (style : NumberStyle) (x : Float) : String :=
  let bits := x.toBits.toNat
  let negative := decide (Nat.pow 2 63 ≤ bits)
  let low := bits % Nat.pow 2 63
  let biasedMax := 2047 * Nat.pow 2 52
  if biasedMax < low then style.nan
  else if low = biasedMax then (if negative then style.negativeInfinity else style.infinity)
  else
    let sign := if negative && (low != 0 || style.signedZero) then "-" else ""
    sign ++ style.magnitude (Magnitude.ofBits low)

end NumberStyle

/-! ## Examples -/

example : NumberStyle.display.text 1.5 = "1.5" ∧ NumberStyle.display.text 100 = "100" := by
  decide +kernel

example : NumberStyle.display.text (0.1 + 0.2) = "0.30000000000000004" := by decide +kernel

example : NumberStyle.display.text (-0.0) = "0" ∧ NumberStyle.json.text (-0.0) = "-0.0" := by
  decide +kernel

/-- Halfway between two decimals with sixteen digits. -/
example : NumberStyle.display.text 587408054847347.25 = "587408054847347.3" ∧
    NumberStyle.json.text 587408054847347.25 = "587408054847347.2" := by
  decide +kernel

end SlotMarkup
