import DesignComponents.Host.Snapshot
import DesignComponents.Text.Placeholder

/-! What the text of a node is bound to. Placeholders in the text come first, then a property
that the text refers to, then a bound variable whose name is known; otherwise the text stands
for itself. -/

namespace DesignComponents

open Text (Segment)

inductive Binding where
  | placeholders (segments : List Segment)
  | property (key : String)
  | variable (id : VariableId) (name : String)
  | literal (text : String)
  deriving DecidableEq, Repr

namespace Binding

def isPlaceholder : Segment → Bool
  | .placeholder _ => true
  | .literal _ => false

/-- The bound variable of a node together with its name. -/
def named? (s : Snapshot) (n : Node) : Option (VariableId × String) := do
  let id ← n.boundVariable
  let name ← s.variableName? id
  pure (id, name)

def classify (s : Snapshot) (n : Node) : Binding :=
  let text := n.characters.getD ""
  let segments := Text.segments text
  if segments.any isPlaceholder then placeholders segments
  else
    match n.textReference with
    | some key => property key
    | none =>
      match named? s n with
      | some (id, name) => .variable id name
      | none => literal text

end Binding

end DesignComponents
