/-! Finite double precision numbers as exact data: a sign, a whole significand and a power of
two. Products and quotients are rounded to the nearest representable magnitude, a tie to the
even significand; a magnitude beyond the range has no value. -/

namespace DesignComponents

/-- The number `significand * 2 ^ exponent`, negated if the flag is set. -/
structure Double where
  negative : Bool
  significand : Nat
  exponent : Int
  deriving DecidableEq, Repr

namespace Double

/-- A magnitude `significand * 2 ^ exponent`. -/
abbrev Magnitude := Nat × Int

def lowestExponent : Int := -1074

def highestExponent : Int := 971

/-- The quotient rounded to the nearest whole number, a tie to the even one. -/
def roundDiv (num den : Nat) : Nat :=
  let q := num / den
  let twice := 2 * (num % den)
  if twice < den ∨ (twice = den ∧ q % 2 = 0) then q else q + 1

/-- The quotient `num / (den * 2 ^ e)`, rounded. -/
def roundAt (num den : Nat) (e : Int) : Nat :=
  if 0 ≤ e then roundDiv num (den * Nat.pow 2 e.toNat) else roundDiv (num * Nat.pow 2 (-e).toNat) den

/-- The exponent at which the whole part of a positive quotient has fifty-three bits, but not
below the lowest one. -/
def exponentFor (num den : Nat) : Int :=
  let guess : Int := (num.log2 : Int) - (den.log2 : Int) - 52
  let reaches : Bool :=
    if 0 ≤ guess then den * Nat.pow 2 guess.toNat * Nat.pow 2 52 ≤ num
    else den * Nat.pow 2 52 ≤ num * Nat.pow 2 (-guess).toNat
  max (if reaches then guess else guess - 1) lowestExponent

/-- The representable magnitude nearest to a quotient, if it is in range. -/
def nearest (num den : Nat) : Option Magnitude :=
  if num = 0 then some (0, lowestExponent)
  else
    let e := exponentFor num den
    let m := roundAt num den e
    let (m, e) := if m = Nat.pow 2 53 then (Nat.pow 2 52, e + 1) else (m, e)
    if highestExponent < e then none else some (m, e)

/-- Numerator and denominator of a magnitude. -/
def ratio (a : Magnitude) : Nat × Nat :=
  if 0 ≤ a.2 then (a.1 * Nat.pow 2 a.2.toNat, 1) else (a.1, Nat.pow 2 (-a.2).toNat)

def mul (a b : Magnitude) : Option Magnitude :=
  nearest ((ratio a).1 * (ratio b).1) ((ratio a).2 * (ratio b).2)

def div (a b : Magnitude) : Option Magnitude :=
  nearest ((ratio a).1 * (ratio b).2) ((ratio a).2 * (ratio b).1)

/-- Whether the number is not zero and has all fifty-three bits. -/
def isNormal (d : Double) : Bool :=
  Nat.pow 2 52 ≤ d.significand

end Double

end DesignComponents
