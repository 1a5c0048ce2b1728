import DesignComponents.Json.Basic
import DesignComponents.Number.Shortest
import DesignComponents.Text.Hex

/-! JSON text of a value, without spaces or laid out with two spaces per level. Strings escape
the quote, the backslash and the control characters and nothing else. -/

namespace DesignComponents.Json

def escapeChar : Char → List Char
  | '"' => ['\\', '"']
  | '\\' => ['\\', '\\']
  | '\n' => ['\\', 'n']
  | '\r' => ['\\', 'r']
  | '\t' => ['\\', 't']
  | c =>
    if c.toNat = 8 then ['\\', 'b']
    else if c.toNat = 12 then ['\\', 'f']
    else if c.toNat < 32 then
      ['\\', 'u', '0', '0', Text.hexDigit (c.toNat / 16), Text.hexDigit (c.toNat % 16)]
    else [c]

/-- A string between quotes. -/
def quoted (s : String) : String :=
  String.ofList ('"' :: s.toList.flatMap escapeChar ++ ['"'])

def Number.toText : Number → String
  | .integer n => toString n.value
  | .double d => d.toText

mutual

/-- The text without spaces. -/
def compact : Json → String
  | .null => "null"
  | .bool b => if b then "true" else "false"
  | .number n => n.toText
  | .string s => quoted s
  | .array items => "[" ++ String.intercalate "," (compactItems items) ++ "]"
  | .object fields => "\x7b" ++ String.intercalate "," (compactFields fields) ++ "\x7d"

def compactItems : List Json → List String
  | [] => []
  | v :: vs => compact v :: compactItems vs

def compactFields : List (String × Json) → List String
  | [] => []
  | (k, v) :: fs => (quoted k ++ ":" ++ compact v) :: compactFields fs

end

def margin (level : Nat) : String :=
  String.ofList (List.replicate (2 * level) ' ')

/-- Bracketed entries, one a line, one level deeper than the brackets. -/
def block (level : Nat) (start stop : String) : List String → String
  | [] => start ++ stop
  | e :: es =>
    let line (s : String) : String := "\n" ++ margin (level + 1) ++ s
    start ++ String.intercalate "," (line e :: es.map line) ++ "\n" ++ margin level ++ stop

mutual

/-- The text with one entry a line. -/
def pretty (level : Nat) : Json → String
  | .null => "null"
  | .bool b => if b then "true" else "false"
  | .number n => n.toText
  | .string s => quoted s
  | .array items => block level "[" "]" (prettyItems (level + 1) items)
  | .object fields => block level "\x7b" "\x7d" (prettyFields (level + 1) fields)

def prettyItems (level : Nat) : List Json → List String
  | [] => []
  | v :: vs => pretty level v :: prettyItems level vs

def prettyFields (level : Nat) : List (String × Json) → List String
  | [] => []
  | (k, v) :: fs => (quoted k ++ ": " ++ pretty level v) :: prettyFields level fs

end

end DesignComponents.Json
