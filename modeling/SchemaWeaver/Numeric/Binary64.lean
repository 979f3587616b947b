/-!
Finite binary floating-point numbers with 53 significant bits, computed in exact natural-number
arithmetic: every operation forms the exact quotient and rounds it once.
-/

set_option autoImplicit false
set_option relaxedAutoImplicit false

namespace SchemaWeaver.Numeric

/-- The integer nearest to a quotient; a half goes to the even neighbour. -/
def roundQuotient (numerator denominator : Nat) : Nat :=
  let quotient := numerator / denominator
  let remainder := 2 * (numerator % denominator)
  if remainder > denominator || (remainder == denominator && quotient % 2 == 1) then quotient + 1
  else quotient

/-- A magnitude: `significand * 2 ^ exponent`. -/
structure Magnitude where
  significand : Nat
  exponent : Int
  deriving DecidableEq, Repr

namespace Magnitude

def precision : Nat := 53

def minExponent : Int := -1074

def maxExponent : Int := 971

def zero : Magnitude := ⟨0, minExponent⟩

def isZero (a : Magnitude) : Bool := a.significand == 0

/-- The numerator and the denominator of `n * 2 ^ e`. -/
def quotient (n : Nat) (e : Int) : Nat × Nat :=
  (n * Nat.pow 2 e.toNat, Nat.pow 2 (-e).toNat)

/-- The exponent `e` with `2 ^ e ≤ numerator / denominator < 2 ^ (e + 1)`. -/
def binaryOrder (numerator denominator : Nat) : Int :=
  let guess : Int := (Nat.log2 numerator : Int) - (Nat.log2 denominator : Int)
  if denominator * Nat.pow 2 guess.toNat ≤ numerator * Nat.pow 2 (-guess).toNat then guess
  else guess - 1

/-- The magnitude nearest to a quotient, a half going to the even significand; `none` if that is
beyond the largest one. -/
def nearest (numerator denominator : Nat) : Option Magnitude :=
  if numerator = 0 then some zero
  else
    let e := max minExponent (binaryOrder numerator denominator + 1 - precision)
    let significand :=
      roundQuotient (numerator * Nat.pow 2 (-e).toNat) (denominator * Nat.pow 2 e.toNat)
    let rounded : Magnitude :=
      if significand = Nat.pow 2 precision then ⟨Nat.pow 2 (precision - 1), e + 1⟩
      else ⟨significand, e⟩
    if rounded.exponent > maxExponent then none else some rounded

def mul (a b : Magnitude) : Option Magnitude :=
  let (n, d) := quotient (a.significand * b.significand) (a.exponent + b.exponent)
  nearest n d

def div (a b : Magnitude) : Option Magnitude :=
  let (n, d) := quotient a.significand (a.exponent - b.exponent)
  nearest n (d * b.significand)

def powerOfTen (k : Nat) : Option Magnitude :=
  nearest (Nat.pow 10 k) 1

def maxPower : Nat := 308

/-- Divide by ten to the power `k`, in steps of the largest power of ten while more than that is
left and the value is not zero yet. -/
def scaleDown (a : Magnitude) (k : Nat) : Option Magnitude :=
  if k ≤ maxPower then powerOfTen k >>= a.div
  else if a.isZero then some a
  else powerOfTen maxPower >>= a.div >>= fun b => scaleDown b (k - maxPower)
termination_by k
decreasing_by
  have : maxPower = 308 := rfl
  omega

/-- Multiply by ten to the power `k`; `none` beyond the largest magnitude. -/
def scaleUp (a : Magnitude) (k : Nat) : Option Magnitude :=
  if k ≤ maxPower then powerOfTen k >>= a.mul
  else if a.isZero then some a
  else none

/-- The value of `significand * 10 ^ exponent`: the significand is rounded, the power of ten is
rounded, and so is their product or quotient. -/
def ofDecimal (significand : Nat) (exponent : Int) : Option Magnitude :=
  nearest significand 1 >>= fun a =>
    if exponent < 0 then scaleDown a (-exponent).toNat else scaleUp a exponent.toNat

end Magnitude

/-- A finite binary floating-point number; zero has two signs. -/
structure Binary64 where
  negative : Bool
  magnitude : Magnitude
  deriving DecidableEq, Repr

end SchemaWeaver.Numeric
