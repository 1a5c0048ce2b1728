import DesignComponents.Text.Blank

/-! Lines of a text, indentation, and the clean layout of generated source. A line ends at a
line feed; a carriage return directly before the line feed belongs to the line end, and a last
line without a line feed keeps all its characters. The clean layout has no trailing white
space, no leading blank line, at most one blank line in a row, and one final line feed. -/

namespace DesignComponents.Text

def lines : List Char → List (List Char)
  | [] => []
  | '\n' :: cs => [] :: lines cs
  | '\r' :: '\n' :: cs => [] :: lines cs
  | c :: cs =>
    match lines cs with
    | [] => [[c]]
    | l :: ls => (c :: l) :: ls

/-- Every line followed by a line feed. -/
def unlines (ls : List (List Char)) : List Char :=
  ls.flatMap (· ++ ['\n'])

def isBlankLine (l : List Char) : Bool :=
  l.all isBlank

/-- Shifts every line that is not blank to the right; the last line feed is dropped. -/
def indent (width : Nat) (text : String) : String :=
  let shift (l : List Char) : String :=
    if isBlankLine l then String.ofList l
    else String.ofList (List.replicate width ' ' ++ l)
  String.intercalate "\n" ((lines text.toList).map shift)

/-- Right-trimmed lines with leading blank lines dropped and runs of blank lines cut to one.
The flag tells whether the line before was blank. -/
def squeeze : Bool → List (List Char) → List (List Char)
  | _, [] => []
  | afterBlank, l :: ls =>
    match trimEnd l with
    | [] => if afterBlank then squeeze true ls else [] :: squeeze true ls
    | c :: cs => (c :: cs) :: squeeze false ls

/-- Drops blank lines at the end. -/
def dropBlankEnd (ls : List (List Char)) : List (List Char) :=
  (ls.reverse.dropWhile List.isEmpty).reverse

/-- The clean layout of a source text. -/
def tidy (text : String) : String :=
  match dropBlankEnd (squeeze true (lines text.toList)) with
  | [] => "\n"
  | l :: ls => String.ofList (unlines (l :: ls))

end DesignComponents.Text
