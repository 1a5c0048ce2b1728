import DesignComponents.Json.Printer

/-! How a template sees a value: what it prints, whether it counts as true, what items it has, and
where the names of a path lead in it. -/

namespace DesignComponents.Template

mutual

/-- What a value prints. -/
def shown : Json → String
  | .null => ""
  | .bool b => if b then "true" else "false"
  | .number n => n.toText
  | .string s => s
  | .array items => "[" ++ String.intercalate ", " (showAll items) ++ "]"
  | .object _ => "[object]"

def showAll : List Json → List String
  | [] => []
  | v :: vs => shown v :: showAll vs

end

/-- Whether a value counts as true. -/
def truthy : Json → Bool
  | .null => false
  | .bool b => b
  | .number (.integer n) => n.value ≠ 0
  | .number (.double d) => d.isNormal
  | .string s => !s.isEmpty
  | .array items => !items.isEmpty
  | .object fields => !fields.isEmpty

/-- The items a value is repeated for. -/
def itemsOf : Json → List Json
  | .array items => items
  | .object fields => fields.map Prod.snd
  | _ => []

/-- The place in a list that a name stands for, if it is a number that fits a word. -/
def place? (name : String) : Option Nat :=
  let ds := name.toList
  let n := ds.foldl (fun n d => n * 10 + (d.toNat - '0'.toNat)) 0
  if !ds.isEmpty && ds.all Char.isDigit && n < Nat.pow 2 64 then some n else none

/-- The value that a name leads to, null if there is none. Inside a list only numbers are names. -/
def step (v : Json) (name : String) : Option Json :=
  match v with
  | .array items => (place? name).map fun i => (items[i]?).getD .null
  | v => some ((v.field? name).getD .null)

/-- The value at the end of a path. -/
def follow (v : Json) (path : List String) : Option Json :=
  path.foldlM step v

end DesignComponents.Template
