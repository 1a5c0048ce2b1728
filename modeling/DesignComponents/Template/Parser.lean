import DesignComponents.OrderedMap
import DesignComponents.Template.Piece

/-! Templates from text. Blocks nest, and each ends with the name it starts with; a block may turn
once to its other case. A tag that is not closed, is empty or does not match makes the whole
template invalid. -/

namespace DesignComponents.Template

/-- A block that is still open. -/
structure OpenBlock where
  helper : String
  args : List Argument
  /-- The parts in front of it, last one first. -/
  before : List Part
  /-- Its first body, once it has turned to the other one. -/
  body : Option (List Part)

namespace OpenBlock

/-- The block as a part, given the parts since it was opened or turned. -/
def close (b : OpenBlock) (parts : List Part) : Part :=
  match b.body with
  | none => .call b.helper b.args parts []
  | some body => .call b.helper b.args body parts

/-- Turns to the other body, unless that has been done. -/
def turn? (b : OpenBlock) (parts : List Part) : Option OpenBlock :=
  match b.body with
  | none => some { b with body := some parts }
  | some _ => none

end OpenBlock

/-- Builds the parts of a template; the parts of the innermost block are gathered last one
first. -/
def assemble : List OpenBlock → List Part → List Piece → Option (List Part)
  | [], parts, [] => some parts.reverse
  | _ :: _, _, [] => none
  | bs, parts, .text cs :: ps => assemble bs (.text (String.ofList cs) :: parts) ps
  | bs, parts, .tag (.value p) :: ps => assemble bs (.value p :: parts) ps
  | bs, parts, .tag (.call h args) :: ps => assemble bs (.call h args [] [] :: parts) ps
  | bs, parts, .tag .remark :: ps => assemble bs parts ps
  | bs, parts, .tag (.start h args) :: ps => assemble (⟨h, args, parts, none⟩ :: bs) [] ps
  | [], _, .tag .otherwise :: _ => none
  | b :: bs, parts, .tag .otherwise :: ps =>
    match b.turn? parts.reverse with
    | some b => assemble (b :: bs) [] ps
    | none => none
  | [], _, .tag (.finish _) :: _ => none
  | b :: bs, parts, .tag (.finish h) :: ps =>
    if b.helper = h then assemble bs (b.close parts.reverse :: b.before) ps else none

/-- The parts of a template text, if it is valid. -/
def parse (source : String) : Option (List Part) := do
  let ps ← Piece.ofText source
  assemble [] [] ps

/-- Templates by name. -/
structure Library where
  templates : OrderedMap String (List Part)

namespace Library

def empty : Library := ⟨∅⟩

/-- Keeps a template under a name; an invalid one changes nothing. -/
def register (l : Library) (name source : String) : Option Library :=
  (parse source).map fun parts => ⟨l.templates.insert name parts⟩

def contains (l : Library) (name : String) : Bool := (l.templates.find? name).isSome

/-- What the template of that name prints, if there is one that fits the data. -/
def render (l : Library) (name : String) (data : Json) : Option String :=
  (l.templates.find? name).bind (renderAll data)

end Library

/-- What a template text prints, if it is valid and fits the data. -/
def renderText (source : String) (data : Json) : Option String :=
  (parse source).bind (renderAll data)

end DesignComponents.Template
