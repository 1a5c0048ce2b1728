import DesignComponents.Scene.Node

/-! Scenes. A scene holds nodes in the order they were added; a node is known by its place in
that order, and a container lists the places of its children. The last node added as a root
is the root. -/

namespace DesignComponents

/-- A node and, if it is a container, its children. -/
structure Slot where
  node : Node
  children : Option (List NodeId)

namespace Slot

/-- A new node; containers start without children. -/
def ofNode (node : Node) : Slot :=
  ⟨node, if node.kind.isContainer then some [] else none⟩

def hasText (s : Slot) : Bool := s.children.isNone && s.node.characters.isSome

/-- Adds a child at the end; a node without a list of children gets one. -/
def addChild (s : Slot) (id : NodeId) : Slot :=
  { s with children := some (s.children.getD [] ++ [id]) }

end Slot

structure Scene where
  slots : Array Slot
  root : Option NodeId

namespace Scene

def empty : Scene := ⟨#[], none⟩

def size (s : Scene) : Nat := s.slots.size

def get? (s : Scene) (id : NodeId) : Option Slot := s.slots[id]?

/-- Adds a node and makes it the root. -/
def addRoot (s : Scene) (slot : Slot) : Scene :=
  ⟨s.slots.push slot, some s.size⟩

/-- Adds a node and then lists it under its parent, if there is such a node by now. -/
def addChild (s : Scene) (parent : NodeId) (slot : Slot) : Scene :=
  ⟨(s.slots.push slot).modify parent (·.addChild s.size), s.root⟩

/-- The children of a node; there are none where there is no node. -/
def childrenOf (s : Scene) (id : NodeId) : List NodeId :=
  ((s.get? id).bind Slot.children).getD []

/-- Walks depth first from a stack of places, at most the given number of steps. A place
without a node is a step as well. -/
def walk (s : Scene) : Nat → List NodeId → List NodeId
  | 0, _ => []
  | _ + 1, [] => []
  | limit + 1, id :: stack => id :: walk s limit (s.childrenOf id ++ stack)

/-- The subtree of a place in depth-first order, cut off at a limit. -/
def descendants (s : Scene) (limit : Nat) (start : NodeId) : List NodeId :=
  s.walk limit [start]

end Scene

end DesignComponents
