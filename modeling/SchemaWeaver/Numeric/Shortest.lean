import SchemaWeaver.Numeric.Binary64
import SchemaWeaver.Text

/-!
Decimal text of floating-point numbers: the fewest digits that round back to the number, of those
the nearest, an exact tie going to the even digit; then laid out positionally or with an exponent.
-/

set_option autoImplicit false
set_option relaxedAutoImplicit false

namespace SchemaWeaver.Numeric

/-- A decimal `digits * 10 ^ exponent`. -/
structure Decimal where
  digits : Nat
  exponent : Int
  deriving DecidableEq, Repr

namespace Decimal

def width (n : Nat) : Nat := (Nat.toDigits 10 n).length

/-- The exponent `p` with `10 ^ (p - 1) ≤ numerator / denominator < 10 ^ p`. -/
def decimalOrder (numerator denominator : Nat) : Int :=
  let guess : Int := (width numerator : Int) - (width denominator : Int)
  if denominator * Nat.pow 10 guess.toNat ≤ numerator * Nat.pow 10 (-guess).toNat then guess + 1
  else guess

def strip (d : Decimal) : Decimal :=
  if d.digits ≠ 0 ∧ d.digits % 10 = 0 then strip ⟨d.digits / 10, d.exponent + 1⟩ else d
termination_by d.digits
decreasing_by omega

end Decimal

namespace Magnitude

/-- The ends of the interval of values that round to a magnitude, in quarters of its last place. The
interval below a power of two is half as wide, because the magnitudes there lie closer. -/
def roundingEnds (a : Magnitude) : Nat × Nat :=
  let centre := 4 * a.significand
  let closer := a.significand = Nat.pow 2 (precision - 1) ∧ a.exponent > minExponent
  (if closer then centre - 1 else centre - 2, centre + 2)

/-- Whether `d` rounds to the magnitude. The ends of the interval belong to an even significand. -/
def roundsFrom (a : Magnitude) (d : Decimal) : Bool :=
  let (low, high) := a.roundingEnds
  let e := a.exponent - 2
  let scale := Nat.pow 2 e.toNat * Nat.pow 10 (-d.exponent).toNat
  let value := d.digits * Nat.pow 10 d.exponent.toNat * Nat.pow 2 (-e).toNat
  if a.significand % 2 = 0 then low * scale ≤ value && value ≤ high * scale
  else low * scale < value && value < high * scale

/-- The decimals with a given last place that lie next to the magnitude, below and above, and how
far the magnitude is from each. -/
def neighbours (a : Magnitude) (place : Int) : List (Decimal × Nat) :=
  let (n, d) := quotient a.significand a.exponent
  let numerator := n * Nat.pow 10 (-place).toNat
  let denominator := d * Nat.pow 10 place.toNat
  let below := numerator / denominator
  let remainder := numerator % denominator
  if remainder = 0 then [(⟨below, place⟩, 0)]
  else [(⟨below, place⟩, remainder), (⟨below + 1, place⟩, denominator - remainder)]

/-- Of two candidates the nearer one, and in a tie the one with even digits. -/
def closer : List (Decimal × Nat) → Option Decimal
  | [] => none
  | [(d, _)] => some d
  | (d, near) :: (e, far) :: _ =>
      if near < far ∨ (near = far ∧ d.digits % 2 = 0) then some d else some e

/-- The nearest decimal with the fewest digits that rounds to the magnitude, where `count` digits
are tried first and `more` is how many longer ones may follow. -/
def shortestFrom (a : Magnitude) (order : Int) (count : Nat) : Nat → Option Decimal
  | 0 => none
  | more + 1 =>
      let candidates :=
        (a.neighbours (order - count)).filter fun candidate => a.roundsFrom candidate.1
      match closer candidates with
      | some d => some d
      | none => shortestFrom a order (count + 1) more

/-- The shortest decimal of a positive magnitude. Seventeen digits always suffice. -/
def shortest (a : Magnitude) : Decimal :=
  let (n, d) := quotient a.significand a.exponent
  ((shortestFrom a (Decimal.decimalOrder n d) 1 17).getD ⟨0, 0⟩).strip

end Magnitude

structure DecimalLayout where
  leastPositional : Int
  greatestPositional : Int

/-- From `0.00001` to below ten to the sixteenth, numbers are written positionally. -/
def DecimalLayout.standard : DecimalLayout := ⟨-5, 15⟩

open Text (decimal)

/-- Digits and exponent as text. A positional number has a digit after the point; an exponent has
its sign and no padding. -/
def DecimalLayout.write (layout : DecimalLayout) (d : Decimal) : List Char :=
  let digits := decimal d.digits
  let point : Int := digits.length + d.exponent
  let order := point - 1
  if layout.leastPositional ≤ order ∧ order ≤ layout.greatestPositional then
    if point ≤ 0 then
      ['0', '.'] ++ List.replicate (-point).toNat '0' ++ digits
    else if d.exponent ≥ 0 then
      digits ++ List.replicate d.exponent.toNat '0' ++ ['.', '0']
    else
      digits.take point.toNat ++ ['.'] ++ digits.drop point.toNat
  else
    let fraction := match digits.drop 1 with
      | [] => []
      | rest => '.' :: rest
    let sign := if order < 0 then '-' else '+'
    digits.take 1 ++ fraction ++ ['e', sign] ++ decimal order.natAbs

def Binary64.text (x : Binary64) : List Char :=
  let sign := if x.negative then ['-'] else []
  if x.magnitude.isZero then sign ++ ['0', '.', '0']
  else sign ++ DecimalLayout.standard.write x.magnitude.shortest

end SchemaWeaver.Numeric
