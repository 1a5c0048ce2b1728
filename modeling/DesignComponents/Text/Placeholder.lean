import DesignComponents.Text.Blank

/-! Placeholders in text. A placeholder is two opening braces, the shortest body on the same
line, and two closing braces; the text is scanned from the left and matches do not overlap.
A match with a blank body stays part of the literal text around it. -/

namespace DesignComponents.Text

/-- A run of literal text, or the trimmed body of a placeholder. -/
inductive Segment where
  | literal (text : String)
  | placeholder (body : String)
  deriving DecidableEq, Repr

namespace Placeholder

/-- The body in front of the nearest two closing braces on the line. -/
def body? : List Char → Option (List Char)
  | [] => none
  | '\n' :: _ => none
  | '}' :: '}' :: _ => some []
  | c :: cs => (body? cs).map (c :: ·)

/-- The body of the placeholder that starts here. -/
def at? : List Char → Option (List Char)
  | '{' :: '{' :: cs => body? cs
  | _ => none

/-- What the scan meets: a character outside of all matches, or the raw body of a match. -/
inductive Piece where
  | char (c : Char)
  | span (raw : List Char)
  deriving DecidableEq, Repr

/-- Scans a text from the left. The count says how many characters still belong to the last
match: a body and three braces once its first brace is read. -/
def scan : Nat → List Char → List Piece
  | _, [] => []
  | skip + 1, _ :: cs => scan skip cs
  | 0, c :: cs =>
    match at? (c :: cs) with
    | some raw => .span raw :: scan (raw.length + 3) cs
    | none => .char c :: scan 0 cs

/-- The source text of a match. -/
def spell (raw : List Char) : List Char :=
  '{' :: '{' :: raw ++ ['}', '}']

/-- The literal segment of the characters gathered so far, last one first. -/
def flush : List Char → List Segment
  | [] => []
  | c :: cs => [.literal (String.ofList (c :: cs).reverse)]

def gather : List Char → List Piece → List Segment
  | acc, [] => flush acc
  | acc, .char c :: ps => gather (c :: acc) ps
  | acc, .span raw :: ps =>
    match trim raw with
    | [] => gather ((spell raw).reverse ++ acc) ps
    | c :: cs => flush acc ++ .placeholder (String.ofList (c :: cs)) :: gather [] ps

end Placeholder

/-- Literal runs and placeholders of a text, in order. -/
def segments (text : String) : List Segment :=
  Placeholder.gather [] (Placeholder.scan 0 text.toList)

end DesignComponents.Text
