import DesignComponents.Scene.Arena

/-! Trees of a scene. A tree shows a node with all that is below it, so that later stages can
recurse on it; every node keeps its place in the scene. -/

namespace DesignComponents

/-- A node with a list of children, or a node without one. -/
inductive Tree where
  | branch (id : NodeId) (node : Node) (children : List Tree)
  | leaf (id : NodeId) (node : Node)

namespace Tree

def id : Tree → NodeId
  | branch id _ _ => id
  | leaf id _ => id

def node : Tree → Node
  | branch _ node _ => node
  | leaf _ node => node

def children : Tree → List Tree
  | branch _ _ children => children
  | leaf _ _ => []

mutual

/-- All nodes with their places, each before its children. -/
def preorder : Tree → List (NodeId × Node)
  | branch id node children => (id, node) :: preorderAll children
  | leaf id node => [(id, node)]

def preorderAll : List Tree → List (NodeId × Node)
  | [] => []
  | t :: ts => preorder t ++ preorderAll ts

end

end Tree

namespace Scene

/-- The tree below a place, down to the given depth. -/
def unfold (s : Scene) : Nat → NodeId → Option Tree
  | 0, _ => none
  | depth + 1, id =>
    match s.get? id with
    | none => none
    | some ⟨node, none⟩ => some (.leaf id node)
    | some ⟨node, some ids⟩ => some (.branch id node (ids.filterMap (unfold s depth)))

/-- The tree below a place. Children come after their parents, so no path is longer than the
scene. -/
def tree? (s : Scene) (id : NodeId) : Option Tree := s.unfold s.size id

/-- The tree below the root. -/
def rootTree? (s : Scene) : Option Tree := s.root.bind s.tree?

end Scene

end DesignComponents
