import DesignComponents.Number.Double

/-! JSON values. A whole number that fits a signed or an unsigned word of sixty-four bits is
kept exactly, every other number as a double. The fields of an object are kept in a list;
values read from text have their keys in ascending order, each once. -/

namespace DesignComponents

/-- A whole number between `-2 ^ 63` and `2 ^ 64 - 1`. -/
structure Json.Integer where
  value : Int
  lower : -Int.pow 2 63 ≤ value
  upper : value < Int.pow 2 64
  deriving DecidableEq, Repr

inductive Json.Number where
  | integer (n : Json.Integer)
  | double (d : Double)
  deriving DecidableEq, Repr

inductive Json where
  | null
  | bool (b : Bool)
  | number (n : Json.Number)
  | string (s : String)
  | array (items : List Json)
  | object (fields : List (String × Json))
  deriving Repr, Inhabited

namespace Json

/-- The exact whole number if it fits a word. -/
def ofInt? (n : Int) : Option Number :=
  if h : -Int.pow 2 63 ≤ n ∧ n < Int.pow 2 64 then some (.integer ⟨n, h.1, h.2⟩) else none

/-- A count, as far as counts fit a word; a larger one becomes null. -/
def ofNat (n : Nat) : Json :=
  match ofInt? n with
  | some m => .number m
  | none => .null

/-- The whole number that is not negative, if the value is one. -/
def nat? : Json → Option Nat
  | .number (.integer n) => if 0 ≤ n.value then some n.value.toNat else none
  | _ => none

def string? : Json → Option String
  | .string s => some s
  | _ => none

def ofOption {α : Type} (f : α → Json) : Option α → Json
  | none => .null
  | some a => f a

/-- The value of the first field with this key. -/
def field? (key : String) : Json → Option Json
  | .object fields => (fields.find? fun f => f.1 = key).map Prod.snd
  | _ => none

/-- Writes a field into fields in ascending order of keys; a field with the key is replaced. -/
def insertSorted (key : String) (value : Json) : List (String × Json) → List (String × Json)
  | [] => [(key, value)]
  | f :: fs =>
    if key < f.1 then (key, value) :: f :: fs
    else if key = f.1 then (key, value) :: fs
    else f :: insertSorted key value fs

end Json

end DesignComponents
