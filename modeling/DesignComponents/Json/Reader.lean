import DesignComponents.Json.Number
import DesignComponents.Text.Hex

/-! Readers of JSON text. A reader takes characters off the front of a text and meets its
faults in the order of the text, so the first problem is the one reported. Lists and objects
are read one entry at a time; the number of characters left bounds the number of entries.
Brackets nest at most a hundred and twenty-seven deep. -/

namespace DesignComponents.Json

abbrev Reader := StateT (List Char) (Except Fault)

/-- How many brackets may still be opened inside one another at the start of a text. -/
def depthLimit : Nat := 127

namespace Reader

def fail {α : Type} (f : Fault) : Reader α := fun _ => .error f

def ofExcept {α : Type} (read : List Char → Except Fault (α × List Char)) : Reader α := read

def isSpace (c : Char) : Bool := c = ' ' || c = '\n' || c = '\t' || c = '\r'

/-- Passes over white space and shows the next character without taking it. -/
def peek : Reader (Option Char) := fun cs =>
  let rest := cs.dropWhile isSpace
  .ok (rest.head?, rest)

def advance : Reader Unit := fun cs => .ok ((), cs.tail)

/-- The rest of a word whose first letter has been seen. -/
def wordRest : List Char → List Char → Except Fault (Unit × List Char)
  | [], cs => .ok ((), cs)
  | _ :: _, [] => .error .endInValue
  | w :: ws, c :: cs => if c = w then wordRest ws cs else .error .expectedIdent

def word (rest : String) : Reader Unit := do
  advance
  ofExcept (wordRest rest.toList)

/-! ### Strings -/

/-- The value of four hexadecimal digits. A text with fewer than four bytes left ends too
early; any other text without the digits is no escape. -/
def fourHex (cs : List Char) : Except Fault Nat :=
  match cs.take 4 |>.mapM Text.hexValue? with
  | some [a, b, c, d] => .ok (((a * 16 + b) * 16 + c) * 16 + d)
  | _ =>
    if (cs.take 4).foldl (fun n c => n + c.utf8Size) 0 < 4 then .error .endInString
    else .error .invalidEscape

def isHighSurrogate (n : Nat) : Bool := 0xD800 ≤ n && n ≤ 0xDBFF

def isLowSurrogate (n : Nat) : Bool := 0xDC00 ≤ n && n ≤ 0xDFFF

/-- The low half of a surrogate pair, which an escape of its own has to give. -/
def lowSurrogate : List Char → Except Fault Nat
  | [] => .error .endInString
  | ['\\'] => .error .endInString
  | '\\' :: 'u' :: cs => do
    let n ← fourHex cs
    if isLowSurrogate n then .ok n else .error .loneSurrogate
  | _ => .error .endOfHexEscape

/-- The character of a hexadecimal escape and the number of characters behind its `u`. -/
def hexEscape (cs : List Char) : Except Fault (Char × Nat) := do
  let n ← fourHex cs
  if isLowSurrogate n then .error .loneSurrogate
  else if isHighSurrogate n then
    let low ← lowSurrogate (cs.drop 4)
    .ok (Char.ofNat (0x10000 + (n - 0xD800) * 0x400 + (low - 0xDC00)), 10)
  else .ok (Char.ofNat n, 4)

def shortEscape? : Char → Option Char
  | '"' => some '"'
  | '\\' => some '\\'
  | '/' => some '/'
  | 'b' => some (Char.ofNat 8)
  | 'f' => some (Char.ofNat 12)
  | 'n' => some '\n'
  | 'r' => some '\r'
  | 't' => some '\t'
  | _ => none

/-- The character of an escape and the number of characters behind the backslash. -/
def escape : List Char → Except Fault (Char × Nat)
  | [] => .error .endInString
  | 'u' :: cs => (hexEscape cs).map fun r => (r.1, r.2 + 1)
  | c :: _ =>
    match shortEscape? c with
    | some d => .ok (d, 1)
    | none => .error .invalidEscape

/-- The length of an escape that is passed over: surrogates need no partner there. -/
def escapeLength : List Char → Except Fault Nat
  | [] => .error .endInString
  | 'u' :: cs => (fourHex cs).map fun _ => 5
  | c :: _ => if (shortEscape? c).isSome then .ok 1 else .error .invalidEscape

/-- The characters of a string up to its closing quote, and the text behind it. The count says
how many characters still belong to the last escape. -/
def stringBody : Nat → List Char → Except Fault (List Char × List Char)
  | _, [] => .error .endInString
  | skip + 1, _ :: cs => stringBody skip cs
  | 0, c :: cs =>
    if c = '"' then .ok ([], cs)
    else if c = '\\' then
      match escape cs with
      | .error f => .error f
      | .ok (d, used) => (stringBody used cs).map fun r => (d :: r.1, r.2)
    else if c.toNat < 32 then .error .controlCharacter
    else (stringBody 0 cs).map fun r => (c :: r.1, r.2)

def skipStringBody : Nat → List Char → Except Fault (Unit × List Char)
  | _, [] => .error .endInString
  | skip + 1, _ :: cs => skipStringBody skip cs
  | 0, c :: cs =>
    if c = '"' then .ok ((), cs)
    else if c = '\\' then
      match escapeLength cs with
      | .error f => .error f
      | .ok used => skipStringBody used cs
    else if c.toNat < 32 then .error .controlCharacter
    else skipStringBody 0 cs

/-- A string whose opening quote has been seen. -/
def stringHere : Reader String := do
  advance
  let cs ← ofExcept (stringBody 0)
  pure (String.ofList cs)

/-- A number whose first character has been seen. -/
def numberHere : Reader Number := do
  let n ← ofExcept (Numeral.read .endInValue)
  match n.value with
  | .ok v => pure v
  | .error f => fail f

/-! ### Values of a wanted kind -/

def Number.found : Number → Found
  | .integer n => .integer n.value
  | .double d => .double d

/-- Fails because something else was wanted; scalar values are read first, for the message and
because they can be faulty themselves. -/
def mismatch {α : Type} (expected : String) : Reader α := do
  match ← peek with
  | some 'n' => word "ull"; fail (.wrongType .null expected)
  | some 't' => word "rue"; fail (.wrongType (.bool true) expected)
  | some 'f' => word "alse"; fail (.wrongType (.bool false) expected)
  | some '"' => let s ← stringHere; fail (.wrongType (.string s) expected)
  | some '[' => fail (.wrongType .sequence expected)
  | some '{' => fail (.wrongType .map expected)
  | some c =>
    if c = '-' ∨ c.isDigit then
      let n ← numberHere
      fail (.wrongType (Number.found n) expected)
    else fail .expectedValue
  | none => fail .endInValue

def stringAs (expected : String) : Reader String := do
  match ← peek with
  | some '"' => stringHere
  | _ => mismatch expected

def string : Reader String := stringAs "a string"

def unit : Reader Unit := do
  match ← peek with
  | some 'n' => word "ull"
  | _ => mismatch "unit"

/-- A value or the word for its absence. -/
def optional {α : Type} (read : Reader α) : Reader (Option α) := do
  match ← peek with
  | some 'n' => word "ull"; pure none
  | _ => some <$> read

/-! ### Lists and objects -/

/-- Whether a list goes on; the comma before an entry is taken. -/
def hasNext (first : Bool) : Reader Bool := do
  match ← peek with
  | none => fail .endInList
  | some ']' => pure false
  | some c =>
    if first then pure true
    else if c = ',' then
      advance
      match ← peek with
      | none => fail .endInValue
      | some ']' => fail .trailingComma
      | some _ => pure true
    else fail .expectedListComma

/-- The bracket that closes a list. -/
def endList : Reader Unit := do
  match ← peek with
  | some ']' => advance
  | some ',' =>
    advance
    match ← peek with
    | some ']' => fail .trailingComma
    | _ => fail .trailingCharacters
  | some _ => fail .trailingCharacters
  | none => fail .endInList

def entries {α : Type} (read : Reader α) : Nat → Bool → Reader (List α)
  | 0, _ => fail .endInList
  | fuel + 1, first => do
    if ← hasNext first then
      let a ← read
      let rest ← entries read fuel false
      pure (a :: rest)
    else pure []

def remaining : Reader Nat := fun cs => .ok (cs.length, cs)

/-- Opens a bracket, unless too many are open. -/
def opened {α : Type} (depth : Nat) (body : Nat → Reader α) : Reader α :=
  match depth with
  | 0 => fail .tooDeep
  | d + 1 => do
    advance
    body d

/-- A list whose opening bracket has been seen. -/
def listHere {α : Type} (depth : Nat) (read : Reader α) : Reader (List α) :=
  opened depth fun _ => do
    let items ← entries read (← remaining) true
    endList
    pure items

def list {α : Type} (depth : Nat) (read : Reader α) : Reader (List α) := do
  match ← peek with
  | some '[' => listHere depth read
  | _ => mismatch "a sequence"

/-- The key of the next field, if there is one. -/
def nextKey (first : Bool) : Reader (Option String) := do
  let key (c : Option Char) : Reader (Option String) :=
    match c with
    | some '"' => some <$> stringHere
    | some '}' => fail .trailingComma
    | some _ => fail .keyNotString
    | none => fail .endInValue
  match ← peek with
  | none => fail .endInObject
  | some '}' => pure none
  | some c =>
    if first then key (some c)
    else if c = ',' then do
      advance
      key (← peek)
    else fail .expectedObjectComma

def colon : Reader Unit := do
  match ← peek with
  | some ':' => advance
  | some _ => fail .expectedColon
  | none => fail .endInObject

/-- Reads the fields of an object one by one into a state. The step gets the key and reads the
colon and the value. -/
def fields {σ : Type} (step : String → σ → Reader σ) : Nat → Bool → σ → Reader σ
  | 0, _, _ => fail .endInObject
  | fuel + 1, first, s => do
    match ← nextKey first with
    | none => pure s
    | some key =>
      let s ← step key s
      fields step fuel false s

/-- An object whose opening brace has been seen. -/
def objectHere {σ : Type} (depth : Nat) (step : Nat → String → σ → Reader σ) (start : σ) :
    Reader σ :=
  opened depth fun d => do
    let s ← fields (step d) (← remaining) true start
    advance
    pure s

/-! ### Values that are passed over -/

inductive Bracket where
  | list
  | object
  deriving DecidableEq, Repr

def scalarSkip (c : Char) : Reader Unit := do
  match c with
  | 'n' => word "ull"
  | 't' => word "rue"
  | 'f' => word "alse"
  | '"' => advance; ofExcept (skipStringBody 0)
  | _ =>
    if c = '-' ∨ c.isDigit then
      let _ ← ofExcept (Numeral.read .invalidNumber)
      pure ()
    else fail .expectedValue

def keySkip : Reader Unit := do
  match ← peek with
  | some '"' => advance; ofExcept (skipStringBody 0)
  | some _ => fail .keyNotString
  | none => fail .endInObject
  colon

mutual

/-- Passes over a value inside the open brackets, and over all that follows until they are
closed. -/
def skipValue : Nat → List Bracket → Reader Unit
  | 0, _ => fail .endInValue
  | fuel + 1, stack => do
    match ← peek with
    | none => fail .endInValue
    | some '[' => advance; skipRest fuel false (.list :: stack)
    | some '{' => advance; skipRest fuel false (.object :: stack)
    | some c => scalarSkip c; skipRest fuel true stack

/-- Goes on behind an entry, or at the start of a list or object if the flag is not set. -/
def skipRest : Nat → Bool → List Bracket → Reader Unit
  | _, _, [] => pure ()
  | 0, _, _ :: _ => fail .endInValue
  | fuel + 1, afterEntry, b :: outer => do
    match ← peek, b with
    | none, .list => fail .endInList
    | none, .object => fail .endInObject
    | some ']', .list => advance; skipRest fuel true outer
    | some '}', .object => advance; skipRest fuel true outer
    | some c, _ =>
      if afterEntry then
        if c = ',' then advance
        else
          match b with
          | .list => fail .expectedListComma
          | .object => fail .expectedObjectComma
      match b with
      | .list => pure ()
      | .object => keySkip
      skipValue fuel (b :: outer)

end

/-- Passes over one value of any depth. -/
def skip : Reader Unit := do
  skipValue (2 * (← remaining) + 2) []

/-! ### Whole texts -/

/-- Reads one value that has to fill the text. -/
def ofText {α : Type} (read : Reader α) (text : String) : Except Fault α := do
  let (a, rest) ← read text.toList
  match rest.dropWhile isSpace with
  | [] => .ok a
  | _ :: _ => .error .trailingCharacters

end Reader

end DesignComponents.Json
