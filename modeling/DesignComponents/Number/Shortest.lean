import DesignComponents.Number.Double

/-! The shortest decimal text of a double. The digits are the fewest that read back as the
same number; of two decimals with that many digits the nearer one is taken, and of two equally
near ones the even one. -/

namespace DesignComponents.Double

/-- The decimal `digits * 10 ^ power`. -/
structure Decimal where
  digits : Nat
  power : Int
  deriving DecidableEq, Repr

namespace Decimal

/-- Numerator and denominator. -/
def ratio (d : Decimal) : Nat × Nat :=
  if 0 ≤ d.power then (d.digits * Nat.pow 10 d.power.toNat, 1)
  else (d.digits, Nat.pow 10 (-d.power).toNat)

def readsAs (d : Decimal) (a : Magnitude) : Bool :=
  nearest d.ratio.1 d.ratio.2 = some a

end Decimal

/-- The largest power of ten that does not exceed a positive quotient, searched downwards. -/
def leadingPower (num den : Nat) : Nat → Int → Int
  | 0, p => p
  | fuel + 1, p =>
    let fits : Bool :=
      if 0 ≤ p then den * Nat.pow 10 p.toNat ≤ num else den ≤ num * Nat.pow 10 (-p).toNat
    if fits then p else leadingPower num den fuel (p - 1)

/-- The quotient divided by a power of ten: the whole part, and how twice the rest compares
with the divisor. -/
def splitAtPower (num den : Nat) (p : Int) : Nat × Ordering :=
  let (n, d) :=
    if 0 ≤ p then (num, den * Nat.pow 10 p.toNat) else (num * Nat.pow 10 (-p).toNat, den)
  (n / d, compare (2 * (n % d)) d)

/-- The better of the two neighbours on one decimal grid among those that read back. -/
def onGrid (a : Magnitude) (num den : Nat) (p : Int) : Option Decimal :=
  let (low, half) := splitAtPower num den p
  let below : Decimal := ⟨low, p⟩
  let above : Decimal := ⟨low + 1, p⟩
  match below.readsAs a, above.readsAs a, half with
  | true, true, .lt => some below
  | true, true, .gt => some above
  | true, true, .eq => some (if low % 2 = 0 then below else above)
  | true, false, _ => some below
  | false, true, _ => some above
  | false, false, _ => none

/-- Tries the grids from the coarsest on, each ten times finer than the one before. -/
def firstGrid (a : Magnitude) (num den : Nat) : Nat → Int → Option Decimal
  | 0, _ => none
  | fuel + 1, p =>
    match onGrid a num den p with
    | some d => some d
    | none => firstGrid a num den fuel (p - 1)

/-- Drops zeros at the end of the digits. -/
def stripZeros : Nat → Decimal → Decimal
  | 0, d => d
  | fuel + 1, d =>
    if d.digits % 10 = 0 ∧ d.digits ≠ 0 then stripZeros fuel ⟨d.digits / 10, d.power + 1⟩ else d

/-- The shortest decimal of a positive magnitude. Seventeen digits always suffice. -/
def shortest (a : Magnitude) : Decimal :=
  let (num, den) := Double.ratio a
  let top := leadingPower num den 700 309
  match firstGrid a num den 18 (top + 1) with
  | some d => stripZeros 20 d
  | none => ⟨0, 0⟩

/-- How a program writes shortest decimals: the powers of ten of the first digit that are
written positionally. -/
structure Layout where
  lowest : Int
  highest : Int

/-- Positional from a hundred thousandth up to below ten to the sixteenth. -/
def layout : Layout := ⟨-5, 15⟩

/-- Digits with a decimal point after the first `n`, and at least one digit behind it. -/
def pointAfter (n : Nat) (digits : List Char) : List Char :=
  let whole := digits.take n ++ List.replicate (n - digits.length) '0'
  match digits.drop n with
  | [] => whole ++ ['.', '0']
  | d :: ds => whole ++ '.' :: d :: ds

def decimalText (d : Decimal) : List Char :=
  let digits := Nat.toDigits 10 d.digits
  let first : Int := d.power + (digits.length : Int) - 1
  if layout.lowest ≤ first ∧ first ≤ layout.highest then
    if 0 ≤ first then pointAfter (first.toNat + 1) digits
    else '0' :: '.' :: List.replicate ((-first).toNat - 1) '0' ++ digits
  else
    let sign := if 0 ≤ first then '+' else '-'
    let mantissa :=
      match digits with
      | d :: e :: ds => d :: '.' :: e :: ds
      | ds => ds
    mantissa ++ 'e' :: sign :: Nat.toDigits 10 first.natAbs

/-- The text of a double. -/
def toText (d : Double) : String :=
  let magnitude :=
    if d.significand = 0 then ['0', '.', '0']
    else decimalText (shortest (d.significand, d.exponent))
  String.ofList (if d.negative then '-' :: magnitude else magnitude)

end DesignComponents.Double
