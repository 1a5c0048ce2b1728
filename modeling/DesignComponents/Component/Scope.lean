import DesignComponents.Scene.Node

/-! Property scopes. A node with property values or definitions opens a frame for all below it; a
property key is resolved in the innermost frame that has it, a value before a definition. -/

namespace DesignComponents

structure Frame where
  values : PropertyMap
  definitions : PropertyMap

namespace Frame

def resolve (f : Frame) (key : String) : Option PropertyValue :=
  (f.values.find? key).or (f.definitions.find? key)

end Frame

/-- The open frames, innermost first. -/
structure Scope where
  frames : List Frame

namespace Scope

def empty : Scope := ⟨[]⟩

/-- The scope below a node, or of the node itself. -/
def enter (s : Scope) (n : Node) : Scope :=
  if n.values.isEmpty && n.definitions.isEmpty then s
  else ⟨⟨n.values, n.definitions⟩ :: s.frames⟩

def resolve (s : Scope) (key : String) : Option PropertyValue :=
  s.frames.findSome? (·.resolve key)

end Scope

end DesignComponents
