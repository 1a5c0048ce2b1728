import DesignComponents.Number.Double
import DesignComponents.Toml.Quoted

/-! Numbers and dates of TOML. They are only checked, for no configuration holds one: whole
numbers have to fit a signed word of sixty-four bits, floats may not grow beyond the largest
double, and dates have to be in the calendar. -/

namespace DesignComponents.Toml

open Text (Reader)
open Text.Reader (char exactly)

namespace Scalar

/-- A digit below the base. -/
def digit? (base : Nat) (c : Char) : Option Nat :=
  (Text.hexValue? c).filter (· < base)

/-- More digits; a single underscore may stand between two of them. -/
def moreDigits (base : Nat) : List Char → List Nat × List Char
  | [] => ([], [])
  | ['_'] => ([], ['_'])
  | '_' :: c :: cs =>
    match digit? base c with
    | some d => let r := moreDigits base cs; (d :: r.1, r.2)
    | none => ([], '_' :: c :: cs)
  | c :: cs =>
    match digit? base c with
    | some d => let r := moreDigits base cs; (d :: r.1, r.2)
    | none => ([], c :: cs)

/-- One digit or more. -/
def digits (base : Nat) : Reader (List Nat)
  | c :: cs => do
    let d ← digit? base c
    let r := moreDigits base cs
    some (d :: r.1, r.2)
  | [] => none

/-- The digits of a whole number in base ten, which has no leading zero. -/
def wholeDigits : Reader (List Nat)
  | '0' :: cs => some ([0], cs)
  | cs => digits 10 cs

def value (base : Nat) (ds : List Nat) : Nat := ds.foldl (fun n d => n * base + d) 0

/-- Whether a sign was negative; there may be none. -/
def sign : Reader Bool
  | '-' :: cs => some (true, cs)
  | '+' :: cs => some (false, cs)
  | cs => some (false, cs)

def based (base : Nat) : Reader Unit := do
  let ds ← digits base
  if value base ds < Nat.pow 2 63 then pure () else failure

def signedInteger : Reader Unit := do
  let negative ← sign
  let n := value 10 (← wholeDigits)
  if n < Nat.pow 2 63 ∨ (negative ∧ n = Nat.pow 2 63) then pure () else failure

/-- A whole number in base ten, or in another base behind the mark of that base. -/
def integer : Reader Unit
  | '0' :: 'x' :: cs => based 16 cs
  | '0' :: 'o' :: cs => based 8 cs
  | '0' :: 'b' :: cs => based 2 cs
  | cs => signedInteger cs

/-- Whether a decimal is beyond the largest double. The number of digits decides unless the
decimal is near the limit. -/
def overflows (ds : List Nat) (power : Int) : Bool :=
  let ds := ds.dropWhile (· = 0)
  let size := (ds.length : Int) + power
  if ds.isEmpty || size < 300 then false
  else if 320 < size then true
  else
    let n := value 10 ds
    let r := if 0 ≤ power then (n * Nat.pow 10 power.toNat, 1) else (n, Nat.pow 10 (-power).toNat)
    (Double.nearest r.1 r.2).isNone

def exponent : Reader Int := do
  let _ ← char fun c => c = 'e' || c = 'E'
  let negative ← sign
  let n := value 10 (← digits 10)
  pure (if negative then -n else n)

def fraction : Reader (List Nat) := do
  exactly "."
  digits 10

/-- A decimal with a fraction, an exponent or both. Only positive ones are kept in range. -/
def decimal : Reader Unit := do
  let negative ← sign
  let ws ← wholeDigits
  let withFraction : Reader (List Nat × Int) := do
    let fs ← fraction
    let e ← exponent <|> pure 0
    pure (fs, e)
  let (fs, e) ← ((fun e => ([], e)) <$> exponent) <|> withFraction
  if !negative && overflows (ws ++ fs) (e - fs.length) then failure

def special : Reader Unit := do
  let _ ← sign
  exactly "inf" <|> exactly "nan"

/-- So many digits, with a value in the given range. -/
def field (count low high : Nat) : Reader Nat := do
  let ds ← (List.range count).mapM fun _ => char Char.isDigit
  let n := value 10 (ds.map fun c => c.toNat - 48)
  if low ≤ n ∧ n ≤ high then pure n else failure

def isLeap (year : Nat) : Bool := year % 4 = 0 && (year % 100 ≠ 0 || year % 400 = 0)

def daysIn (year month : Nat) : Nat :=
  if month = 2 then (if isLeap year then 29 else 28)
  else if month = 4 ∨ month = 6 ∨ month = 9 ∨ month = 11 then 30
  else 31

def date : Reader Unit := do
  let year ← field 4 0 9999
  exactly "-"
  let month ← field 2 1 12
  exactly "-"
  let _ ← field 2 1 (daysIn year month)

def clock : Reader Unit := do
  let _ ← field 2 0 23
  exactly ":"
  let _ ← field 2 0 59

def subseconds : Reader Unit
  | '.' :: c :: cs => if c.isDigit then some ((), cs.dropWhile Char.isDigit) else none
  | _ => none

def time : Reader Unit := do
  clock
  exactly ":"
  let _ ← field 2 0 60
  subseconds <|> pure ()

def offset : Reader Unit := do
  let c ← char fun c => c = 'Z' || c = 'z' || c = '+' || c = '-'
  if c = '+' ∨ c = '-' then clock

/-- A date, a time, or both with or without an offset. -/
def dateTime : Reader Unit := do
  let behindDate : Reader Unit := do
    let _ ← char fun c => c = 'T' || c = 't' || c = ' '
    time
    offset <|> pure ()
  (do date; behindDate <|> pure ()) <|> time

/-- A number or a date. -/
def read : Reader Unit := dateTime <|> decimal <|> special <|> integer

end Scalar

end DesignComponents.Toml
