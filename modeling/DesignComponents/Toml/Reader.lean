import DesignComponents.Toml.Scalar
import DesignComponents.Toml.Table

/-! Reading TOML documents. A document is a list of statements, one a line; lists may spread over
lines and tables between braces may not. Brackets nest at most seventy-nine deep, and a key
has at most seventy-nine parts. -/

namespace DesignComponents.Toml

open Text (Reader)
open Text.Reader (exactly accept)

/-- How many brackets may stand inside one another. -/
def nestingLimit : Nat := 79

namespace Reader

def margin : Reader Unit := fun cs => some ((), cs.dropWhile isMargin)

def lineBreak : Reader Unit
  | '\n' :: cs => some ((), cs)
  | '\r' :: '\n' :: cs => some ((), cs)
  | _ => none

/-- A comment, if there is one. -/
def comment : Reader Unit
  | '#' :: cs => some ((), cs.dropWhile isPrintable)
  | cs => some ((), cs)

/-- The rest of a line behind a statement. -/
def lineEnd : Reader Unit := do
  margin
  comment
  if (← get).isEmpty then pure () else lineBreak

/-- Drops space, line ends and comments; the flag is set inside of a comment. -/
def dropGap : Bool → List Char → List Char
  | _, [] => []
  | inComment, c :: cs =>
    if inComment && isPrintable c then dropGap true cs
    else if c = '#' then dropGap true cs
    else if isMargin c || c = '\n' || (c = '\r' && cs.head? = some '\n') then dropGap false cs
    else c :: cs

def gap : Reader Unit := fun cs => some ((), dropGap false cs)

def isBare (c : Char) : Bool := c.isAlphanum || c = '_' || c = '-'

def simpleKey : Reader String := fun cs =>
  match cs.takeWhile isBare with
  | [] => Quoted.readLine cs
  | name => some (String.ofList name, cs.dropWhile isBare)

/-- The parts of a dotted key; the number bounds them. -/
def keyParts : Nat → Reader (List String)
  | 0 => failure
  | fuel + 1 => do
    margin
    let name ← simpleKey
    margin
    if ← accept '.' then (name :: ·) <$> keyParts fuel else pure [name]

def key : Reader Key := do
  let parts ← keyParts nestingLimit
  match parts.getLast? with
  | some name => pure ⟨parts.dropLast, name⟩
  | none => failure

/-- The items of a list up to its closing bracket; the last one may have a comma. -/
def items (read : Reader Item) : Nat → Reader (List Item)
  | 0 => failure
  | fuel + 1 => do
    gap
    if ← accept ']' then pure []
    else
      let item ← read
      gap
      if ← accept ',' then (item :: ·) <$> items read fuel
      else
        exactly "]"
        pure [item]

def pair (read : Reader Item) : Reader (Key × Item) := do
  let k ← key
  exactly "="
  margin
  let item ← read
  pure (k, item)

/-- One pair or more up to a closing brace. -/
def pairs (read : Reader Item) : Nat → Reader (List (Key × Item))
  | 0 => failure
  | fuel + 1 => do
    let p ← pair read
    margin
    if ← accept ',' then (p :: ·) <$> pairs read fuel
    else
      exactly "\x7d"
      pure [p]

def inlineTable (read : Reader Item) : Reader Item := do
  margin
  if ← accept '}' then pure (.inline [])
  else
    let ps ← pairs read (← get).length
    match Table.ofPairs ps with
    | some t => pure (.inline t)
    | none => failure

/-- A value inside of which so many brackets may be opened. -/
def value (depth : Nat) : Reader Item := do
  match (← get).head?, depth with
  | some '[', d + 1 =>
    exactly "["
    Item.list <$> items (value d) (← get).length
  | some '{', d + 1 =>
    exactly "\x7b"
    inlineTable (value d)
  | some c, _ =>
    if c = '"' ∨ c = '\'' then Item.text <$> Quoted.read
    else if c = 't' then do exactly "true"; pure .scalar
    else if c = 'f' then do exactly "false"; pure .scalar
    else do Scalar.read; pure .scalar
  | none, _ => failure

def header : Reader Statement := do
  exactly "["
  if ← accept '[' then
    let k ← key
    exactly "]]"
    pure (.addTable k)
  else
    let k ← key
    exactly "]"
    pure (.openTable k)

/-- The statement of a line, if it has one. -/
def line : Reader (Option Statement) := do
  let s ← match (← get).head? with
    | none | some '#' | some '\n' | some '\r' => pure none
    | some '[' => some <$> header
    | some _ => do
      let (k, item) ← pair (value nestingLimit)
      pure (some (.assign k item))
  lineEnd
  pure s

def statements : Nat → Reader (List Statement)
  | 0 => pure []
  | fuel + 1 => do
    margin
    if (← get).isEmpty then pure []
    else
      let s ← line
      (s.toList ++ ·) <$> statements fuel

end Reader

/-- The tables of a document; a byte order mark in front is dropped. -/
def parse (text : String) : Option Table := do
  let cs :=
    match text.toList with
    | '\ufeff' :: cs => cs
    | cs => cs
  let (ss, rest) ← Reader.statements (cs.length + 1) cs
  if rest.isEmpty then Table.ofStatements ss else none

end DesignComponents.Toml
