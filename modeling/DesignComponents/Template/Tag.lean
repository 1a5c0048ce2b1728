import DesignComponents.Json.Value
import DesignComponents.Template.Basic
import DesignComponents.Text.Reader

/-! Reading tags. A tag stands between double braces and gives a path, a helper with arguments, the
start or the end of a block, the turn to the other case of a block, or a remark. Names have
letters, digits, `_`, `-`, `$` and all characters beyond the first hundred and twenty-eight;
between square brackets they have any. -/

namespace DesignComponents.Template

open Text (Reader)
open Text.Reader (exactly accept)

inductive Tag where
  | value (path : List String)
  | call (helper : String) (args : List Argument)
  | start (helper : String) (args : List Argument)
  | finish (helper : String)
  | otherwise
  | remark

namespace Tag

/-- Whether the tag can take the line it stands on. -/
def takesLine : Tag → Bool
  | value _ => false
  | call .. => false
  | _ => true

def gap : Reader Unit := fun cs => some ((), cs.dropWhile Char.isWhitespace)

def close : Reader Unit := do
  gap
  exactly "\x7d\x7d"

/-! ### Names and paths -/

def isSymbol (c : Char) : Bool :=
  c.isAlphanum || c = '_' || c = '-' || c = '$' || 128 ≤ c.toNat

def word : Reader String := fun cs =>
  match cs.takeWhile isSymbol with
  | [] => none
  | w => some (String.ofList w, cs.dropWhile isSymbol)

/-- The end of a word. -/
def wordEnd : Reader Unit := fun cs =>
  if (cs.takeWhile isSymbol).isEmpty then some ((), cs) else none

/-- One name of a path. -/
def name : Reader String
  | '[' :: cs =>
    match cs.dropWhile (· ≠ ']') with
    | [] => none
    | _ :: rest => some (String.ofList (cs.takeWhile (· ≠ ']')), rest)
  | cs => word cs

def separator : Reader Unit := exactly "." <|> exactly "/"

/-- The names of a path; the number bounds them. -/
def names : Nat → Reader (List String)
  | 0 => failure
  | fuel + 1 => do
    let n ← name
    let more ← (do separator; names fuel) <|> pure []
    pure (n :: more)

/-- A path; the word for the item at hand leads nowhere in it. -/
def path (bound : Nat) : Reader (List String) := do
  exactly "./" <|> pure ()
  let ns ← names bound
  pure (ns.filter (· ≠ "this"))

/-! ### Values -/

def digits : Reader (List Char) := fun cs =>
  some (cs.takeWhile Char.isDigit, cs.dropWhile Char.isDigit)

def digits1 : Reader (List Char) := do
  let ds ← digits
  if ds.isEmpty then failure else pure ds

/-- The character itself if it is the next one, or nothing. -/
def mark (c : Char) : Reader (List Char) := do
  pure (if ← accept c then [c] else [])

def power : Reader (List Char) := do
  exactly "E"
  let sign ← mark '-'
  let ds ← digits1
  pure ('E' :: sign ++ ds)

/-- The spelling of a number, which no name goes on from. What is spelled like a number is no
name, even where it is no number of the data format. -/
def numeral : Reader (List Char) := do
  let sign ← mark '-'
  let whole ← digits1
  let point ← mark '.'
  let fraction ← digits
  let power ← power <|> pure []
  wordEnd
  pure (sign ++ whole ++ point ++ fraction ++ power)

/-- The value that a text spells. -/
def spelled? (cs : List Char) : Option Json :=
  (Json.parse (String.ofList cs)).toOption

/-- The rest of a text between apostrophes, spelled as between quotation marks, and what stands
behind it. -/
def requoted : List Char → Option (List Char × List Char)
  | [] => none
  | '\'' :: cs => some (['"'], cs)
  | '\\' :: '\'' :: cs => (requoted cs).map fun r => ('\'' :: r.1, r.2)
  | '\\' :: '"' :: _ => none
  | '\\' :: c :: cs => (requoted cs).map fun r => ('\\' :: c :: r.1, r.2)
  | '"' :: cs => (requoted cs).map fun r => ('\\' :: '"' :: r.1, r.2)
  | c :: cs => (requoted cs).map fun r => (c :: r.1, r.2)

/-- The rest of a text between quotation marks. -/
def quotedBody : Reader String := fun cs =>
  match Json.Reader.stringBody 0 cs with
  | .ok (s, rest) => some (String.ofList s, rest)
  | .error _ => none

def quoted : Reader String
  | '"' :: cs => quotedBody cs
  | '\'' :: cs => do
    let (body, rest) ← requoted cs
    let (s, _) ← quotedBody body
    pure (s, rest)
  | _ => none

/-- The words that stand for values. -/
def wordValues : List (String × Json) :=
  [("null", .null), ("true", .bool true), ("false", .bool false)]

/-- The words that are no arguments. -/
def keywords : List String := ["as", "else"]

/-- A word that stands for a value. -/
def wordValue : Reader Json := do
  let w ← word
  match wordValues.find? fun v => v.1 = w with
  | some v => pure v.2
  | none => failure

/-- An argument that is no number. -/
def plainArgument (bound : Nat) : Reader Argument :=
  (do pure (.value (.string (← quoted))))
  <|> (do pure (.value (← wordValue)))
  <|> (do pure (.path (← path bound)))

def argument (bound : Nat) : Reader Argument := fun cs =>
  if keywords.contains (String.ofList (cs.takeWhile isSymbol)) then none
  else
    match numeral cs with
    | some (spelling, rest) => (spelled? spelling).map fun v => (.value v, rest)
    | none => plainArgument bound cs

/-- An argument with a name, which plays no part. -/
def namedArgument (bound : Nat) : Reader Unit := do
  let _ ← word
  gap
  exactly "="
  gap
  let _ ← argument bound

/-- The arguments in front of the end of a tag; the number bounds them. -/
def arguments : Nat → Reader (List Argument)
  | 0 => pure []
  | fuel + 1 =>
    (do
      gap
      let a ← (do namedArgument fuel; pure []) <|> (do pure [← argument fuel])
      let more ← arguments fuel
      pure (a ++ more))
    <|> pure []

/-! ### Tags -/

/-- A call, or a value. A word alone is a call if it names a helper. -/
def expression (bound : Nat) (close : Reader Unit) : Reader Tag :=
  (do
    let h ← word
    let args ← arguments bound
    close
    if args.isEmpty && (Helper.named? h).isNone then failure else pure (.call h args))
  <|> (do
    let p ← path bound
    close
    pure (.value p))

def turn : Reader Unit := do
  exactly "else" <|> exactly "^"
  close

/-- The text behind the first place where the mark stands. -/
def behind (mark : List Char) : Reader Unit
  | [] => none
  | c :: cs =>
    if mark.isPrefixOf (c :: cs) then some ((), (c :: cs).drop mark.length) else behind mark cs

def remarkRest : Reader Unit :=
  (do
    exactly "--"
    behind ['-', '-', '}', '}'])
  <|> behind ['}', '}']

/-- A tag whose opening braces have been taken. The number bounds its names and arguments. -/
def read (bound : Nat) : Reader Tag := do
  if ← accept '!' then
    remarkRest
    pure .remark
  else
    gap
    if ← accept '#' then
      gap
      let h ← word
      let args ← arguments bound
      close
      pure (.start h args)
    else if ← accept '/' then
      gap
      let h ← word
      close
      pure (.finish h)
    else if ← accept '{' then
      gap
      expression bound do
        gap
        exactly "\x7d"
        close
    else (do turn; pure .otherwise) <|> expression bound close

end Tag

end DesignComponents.Template
