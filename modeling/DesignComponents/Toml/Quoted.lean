import DesignComponents.Text.Hex
import DesignComponents.Text.Reader

/-! Strings of TOML. Between quotation marks a backslash escapes, between apostrophes it does not;
both kinds fill one line or, behind three marks, as many as they need. -/

namespace DesignComponents.Toml

open Text (Reader)

/-- Characters that may stand in comments and strings; control characters other than the
tabulator may not. -/
def isPrintable (c : Char) : Bool := c = '\t' || (32 ≤ c.toNat && c.toNat ≠ 127)

def isMargin (c : Char) : Bool := c = ' ' || c = '\t'

namespace Quoted

/-- The character that hexadecimal digits give, if it is one. -/
def hexChar (count : Nat) (cs : List Char) : Option Char := do
  let ds ← (cs.take count).mapM Text.hexValue?
  let n := ds.foldl (fun n d => n * 16 + d) 0
  if ds.length = count ∧ n.isValidChar then some (Char.ofNat n) else none

/-- The character of an escape and the number of characters behind the backslash. -/
def escape : List Char → Option (Char × Nat)
  | 'u' :: cs => (hexChar 4 cs).map (·, 5)
  | 'U' :: cs => (hexChar 8 cs).map (·, 9)
  | '"' :: _ => some ('"', 1)
  | '\\' :: _ => some ('\\', 1)
  | 'b' :: _ => some (Char.ofNat 8, 1)
  | 'f' :: _ => some (Char.ofNat 12, 1)
  | 'n' :: _ => some ('\n', 1)
  | 'r' :: _ => some ('\r', 1)
  | 't' :: _ => some ('\t', 1)
  | _ => none

/-- The characters up to the closing mark, and the text behind it. The count says how many
characters still belong to the last escape. -/
def line (mark : Char) : Nat → List Char → Option (List Char × List Char)
  | _, [] => none
  | skip + 1, _ :: cs => line mark skip cs
  | 0, c :: cs =>
    if c = mark then some ([], cs)
    else if c = '\\' ∧ mark = '"' then do
      let (d, used) ← escape cs
      let (ds, rest) ← line mark used cs
      some (d :: ds, rest)
    else if isPrintable c then (line mark 0 cs).map fun r => (c :: r.1, r.2)
    else none

/-- The length of a line end. -/
def breakLength : List Char → Nat
  | '\n' :: _ => 1
  | '\r' :: '\n' :: _ => 2
  | _ => 0

/-- Drops margins and line ends. -/
def dropSpace : List Char → List Char
  | [] => []
  | '\r' :: '\n' :: cs => dropSpace cs
  | c :: cs => if isMargin c || c = '\n' then dropSpace cs else c :: cs

/-- The length of the space behind a backslash that ends its line. -/
def continuation? (cs : List Char) : Option Nat :=
  let rest := cs.dropWhile isMargin
  if breakLength rest = 0 then none else some (cs.length - (dropSpace rest).length)

/-- The characters of a text of many lines up to three closing marks, and what is behind them.
One or two marks belong to the text, also directly before the closing ones. -/
def lines (mark : Char) : Nat → List Char → Option (List Char × List Char)
  | _, [] => none
  | skip + 1, _ :: cs => lines mark skip cs
  | 0, c :: cs =>
    let marks := ((c :: cs).takeWhile (· = mark)).length
    if 3 ≤ marks then
      let own := min (marks - 3) 2
      some (List.replicate own mark, (c :: cs).drop (own + 3))
    else if c = '\\' ∧ mark = '"' then
      match continuation? cs with
      | some used => lines mark used cs
      | none => do
        let (d, used) ← escape cs
        let (ds, rest) ← lines mark used cs
        some (d :: ds, rest)
    else if c = '\r' then
      if cs.head? = some '\n' then lines mark 0 cs else none
    else if c = '\n' ∨ isPrintable c then (lines mark 0 cs).map fun r => (c :: r.1, r.2)
    else none

/-- A string that fills one line. -/
def readLine : Reader String
  | '"' :: cs => (line '"' 0 cs).map fun r => (String.ofList r.1, r.2)
  | '\'' :: cs => (line '\'' 0 cs).map fun r => (String.ofList r.1, r.2)
  | _ => none

/-- A string of either length. A line end directly behind the opening marks does not count. -/
def read : Reader String
  | '"' :: '"' :: '"' :: cs =>
    (lines '"' (breakLength cs) cs).map fun r => (String.ofList r.1, r.2)
  | '\'' :: '\'' :: '\'' :: cs =>
    (lines '\'' (breakLength cs) cs).map fun r => (String.ofList r.1, r.2)
  | cs => readLine cs

end Quoted

end DesignComponents.Toml
