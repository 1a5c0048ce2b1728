import DesignComponents.Markup.Basic

/-! Writing markup for the inside of a template literal: two spaces for each level, texts escaped,
members as substitutions. -/

namespace DesignComponents

/-- The value of a member, put into a template literal. -/
def substitution (name : String) : String := "$\x7bthis." ++ name ++ "\x7d"

namespace Piece

def print : Piece → String
  | literal text => Text.templateText text
  | member name => substitution name

def printAll (ps : List Piece) : String := String.join (ps.map print)

end Piece

namespace Attribute

def print : Attribute → String
  | styleClass value => " class=\"" ++ value ++ "\""
  | listener event handler => " @" ++ event ++ "=" ++ substitution handler
  | binding name => " ." ++ name ++ "=" ++ substitution name

end Attribute

namespace Markup

def margin (depth : Nat) : String := String.join (List.replicate depth "  ")

def openTag (tag : String) (attributes : List Attribute) : String :=
  "<" ++ tag ++ String.join (attributes.map Attribute.print) ++ ">"

def closeTag (tag : String) : String := "</" ++ tag ++ ">"

mutual

/-- The lines of an element. -/
def lines (depth : Nat) : Markup → List String
  | inline tag attributes content =>
    [margin depth ++ openTag tag attributes ++ Piece.printAll content ++ closeTag tag]
  | block tag attributes [] => [margin depth ++ openTag tag attributes ++ closeTag tag]
  | block tag attributes (c :: cs) =>
    [margin depth ++ openTag tag attributes] ++
      (lines (depth + 1) c ++ linesAll (depth + 1) cs) ++ [margin depth ++ closeTag tag]

def linesAll (depth : Nat) : List Markup → List String
  | [] => []
  | m :: ms => lines depth m ++ linesAll depth ms

end

def print (m : Markup) : String := String.intercalate "\n" (lines 0 m)

end Markup

namespace Descriptor

/-- The markup text of a component, with members named by a table. -/
def render (d : Descriptor) (s : Snapshot) (names : Identifier.Table) : String :=
  (d.markupOf (Piece.ofText s names) false d.root).print

end Descriptor

end DesignComponents
