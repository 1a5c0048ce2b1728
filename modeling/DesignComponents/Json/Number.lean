import DesignComponents.Json.Basic
import DesignComponents.Json.Fault

/-! Numerals. A numeral is read in two steps, first its parts by the grammar and then its value.
A whole numeral that fits a word is exact. Otherwise as many leading digits as fit an unsigned
word are kept, converted to a double, and scaled once by a power of ten, so the result is
within a few units of the last place of the decimal but not always the nearest double. -/

namespace DesignComponents.Json

/-- The parts of a numeral, digits as numbers below ten. -/
structure Numeral where
  negative : Bool
  whole : List Nat
  fraction : Option (List Nat)
  /-- Whether the exponent counts down, and its digits. -/
  power : Option (Bool × List Nat)
  deriving DecidableEq, Repr

namespace Numeral

def digits (cs : List Char) : List Nat × List Char :=
  ((cs.takeWhile Char.isDigit).map fun c => c.toNat - 48, cs.dropWhile Char.isDigit)

/-- The fault at a place where a digit has to stand. At the end of the text it depends on the
reader. -/
def noDigit (atEnd : Fault) : List Char → Fault
  | [] => atEnd
  | _ :: _ => .invalidNumber

def readWhole (atEnd : Fault) (cs : List Char) : Except Fault (List Nat × List Char) :=
  match digits cs with
  | ([], _) => .error (noDigit atEnd cs)
  | (0 :: _ :: _, _) => .error .invalidNumber
  | r => .ok r

def readFraction (atEnd : Fault) : List Char → Except Fault (Option (List Nat) × List Char)
  | '.' :: cs =>
    match digits cs with
    | ([], _) => .error (noDigit atEnd cs)
    | (ds, rest) => .ok (some ds, rest)
  | cs => .ok (none, cs)

def exponentSign : List Char → Bool × List Char
  | '+' :: cs => (false, cs)
  | '-' :: cs => (true, cs)
  | cs => (false, cs)

def readPower (atEnd : Fault) : List Char → Except Fault (Option (Bool × List Nat) × List Char)
  | c :: cs =>
    if c = 'e' ∨ c = 'E' then
      let (down, cs) := exponentSign cs
      match digits cs with
      | ([], _) => .error (noDigit atEnd cs)
      | (ds, rest) => .ok (some (down, ds), rest)
    else .ok (none, c :: cs)
  | [] => .ok (none, [])

/-- Reads the parts of a numeral; the fault given is the one for a text that ends where a digit
has to stand. -/
def read (atEnd : Fault) (cs : List Char) : Except Fault (Numeral × List Char) := do
  let (negative, cs) :=
    match cs with
    | '-' :: cs => (true, cs)
    | cs => (false, cs)
  let (ws, cs) ← readWhole atEnd cs
  let (fs, cs) ← readFraction atEnd cs
  let (ps, cs) ← readPower atEnd cs
  .ok (⟨negative, ws, fs, ps⟩, cs)

/-- Appends digits to a number as long as it stays within the limit; the rest is returned. -/
def accumulate (limit : Nat) : Nat → List Nat → Nat × List Nat
  | n, [] => (n, [])
  | n, d :: ds => if limit < n * 10 + d then (n, d :: ds) else accumulate limit (n * 10 + d) ds

def wordLimit : Nat := Nat.pow 2 64 - 1

def powerLimit : Nat := Nat.pow 2 31 - 1

/-- Scales a magnitude by powers of ten of at most three hundred and eight each. -/
def scale : Nat → Double.Magnitude → Int → Except Fault Double.Magnitude
  | 0, _, _ => .error .numberOutOfRange
  | fuel + 1, a, e =>
    let tenTo (n : Nat) : Double.Magnitude :=
      (Double.nearest (Nat.pow 10 n) 1).getD (0, Double.lowestExponent)
    if e.natAbs ≤ 308 then
      match if 0 ≤ e then Double.mul a (tenTo e.natAbs) else Double.div a (tenTo e.natAbs) with
      | some b => .ok b
      | none => .error .numberOutOfRange
    else if a.1 = 0 then .ok a
    else if 0 ≤ e then .error .numberOutOfRange
    else scale fuel ((Double.div a (tenTo 308)).getD (0, Double.lowestExponent)) (e + 308)

/-- Powers stay within signed words of thirty-two bits. -/
def clampPower (e : Int) : Int :=
  max (-Int.pow 2 31) (min e (Int.pow 2 31 - 1))

def toDouble (negative : Bool) (significand : Nat) (e : Int) : Except Fault Double := do
  let start := (Double.nearest significand 1).getD (0, Double.lowestExponent)
  let (m, x) ← scale 8 start e
  .ok ⟨negative, m, x⟩

/-- The exact value of a whole numeral that fits a word; other whole values become doubles. -/
def wholeValue (negative : Bool) (n : Nat) : Except Fault Number :=
  let exact := if negative then (if n = 0 then none else ofInt? (-(n : Int))) else ofInt? n
  match exact with
  | some v => .ok v
  | none => (toDouble negative n 0).map .double

def value (num : Numeral) : Except Fault Number :=
  let (n, dropped) := accumulate wordLimit 0 num.whole
  match num.fraction, num.power, dropped with
  | none, none, [] => wholeValue num.negative n
  | _, _, _ =>
    let (significand, used) :=
      match num.fraction with
      | none => (n, 0)
      | some fs =>
        let (m, rest) := accumulate wordLimit n fs
        (m, fs.length - rest.length)
    let start : Int := dropped.length - (used : Int)
    match num.power with
    | none => (toDouble num.negative significand start).map .double
    | some (down, ps) =>
      match accumulate powerLimit 0 ps with
      | (p, []) =>
        let e := clampPower (if down then start - p else start + p)
        (toDouble num.negative significand e).map .double
      | (_, _ :: _) =>
        if significand ≠ 0 ∧ !down then .error .numberOutOfRange
        else .ok (.double ⟨num.negative, 0, Double.lowestExponent⟩)

end Numeral

end DesignComponents.Json
