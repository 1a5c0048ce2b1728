import DesignComponents.Template.Tag

/-! A template as text and tags in turn. A backslash in front of double braces makes them text; of
several backslashes in front of a tag one is dropped. A tag that starts, turns or ends a block
and is alone on its line takes the line with it, which the end of the template does not end. -/

namespace DesignComponents.Template

open Text (Reader)

inductive Piece where
  | text (cs : List Char)
  | tag (t : Tag)

namespace Piece

/-- How many characters behind a backslash stand for themselves. -/
def escaped (cs : List Char) : Nat :=
  match cs.takeWhile (· = '\\'), cs.dropWhile (· = '\\') with
  | [], '{' :: '{' :: '{' :: '{' :: _ => 4
  | [], '{' :: '{' :: _ => 2
  | run, '{' :: '{' :: _ => run.length
  | _, _ => 0

/-- The text up to the next tag, and what follows. The count says how many characters still
stand for themselves. -/
def readText : Nat → List Char → List Char × List Char
  | _, [] => ([], [])
  | plain + 1, c :: cs => let r := readText plain cs; (c :: r.1, r.2)
  | 0, '{' :: '{' :: cs => ([], '{' :: '{' :: cs)
  | 0, c :: cs =>
    if c = '\\' ∧ escaped cs ≠ 0 then readText (escaped cs) cs
    else let r := readText 0 cs; (c :: r.1, r.2)

/-- The pieces of a template; the number bounds them. -/
def readAll : Nat → Reader (List Piece)
  | 0 => failure
  | fuel + 1 => do
    match ← get with
    | [] => pure []
    | '{' :: '{' :: cs =>
      set cs
      let t ← Tag.read fuel
      (tag t :: ·) <$> readAll fuel
    | cs =>
      let (t, rest) := readText 0 cs
      set rest
      (text t :: ·) <$> readAll fuel

/-! ### Lines that tags take -/

def isMargin (c : Char) : Bool := c = ' ' || c = '\t'

def isBreak (c : Char) : Bool := c = '\n' || c = '\r'

/-- Whether nothing but margin stands on the line in front of what follows, given the same for
the text. -/
def endsAtMargin (margin : Bool) (cs : List Char) : Bool :=
  match cs.reverse.dropWhile isMargin with
  | [] => margin
  | c :: _ => isBreak c

/-- Whether nothing but margin stands on the line behind what came before. -/
def startsAtMargin (cs : List Char) : Bool :=
  match cs.dropWhile isMargin with
  | [] => false
  | c :: _ => isBreak c

/-- Whether the first piece is a tag that takes the line if nothing stands in front of it. -/
def endsLine : List Piece → Bool
  | tag t :: text cs :: _ => t.takesLine && startsAtMargin cs
  | _ => false

def dropMargin (cs : List Char) : List Char := cs.dropWhile isMargin

def dropBreak : List Char → List Char
  | '\r' :: '\n' :: cs => cs
  | '\n' :: cs => cs
  | cs => cs

/-- Drops the lines that tags take. The flags tell whether nothing but margin stands in front on
the line, and whether the tag in front has taken its line. -/
def strip : Bool → Bool → List Piece → List Piece
  | _, _, [] => []
  | margin, _, tag t :: ps => tag t :: strip false (margin && endsLine (tag t :: ps)) ps
  | margin, taken, text cs :: ps =>
    let margin := endsAtMargin margin cs
    let cs := if taken then dropBreak (dropMargin cs) else cs
    let cs := if margin && endsLine ps then (dropMargin cs.reverse).reverse else cs
    text cs :: strip margin false ps

/-- The pieces of a template text without the lines that tags take, if it is valid. -/
def ofText (source : String) : Option (List Piece) := do
  let (ps, _) ← readAll (source.length + 1) source.toList
  pure (strip true false ps)

end Piece

end DesignComponents.Template
