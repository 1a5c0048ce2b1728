import DesignComponents.Component.Environment

/-! The properties of a component. A component declares a property for every dynamic value of its
own and for every property that its nested components declare, so that it can pass them on. The
drafts of a tree list all dynamic values below a node in order, boundaries or not; they say
which names are needed. -/

namespace DesignComponents

namespace Draft

/-- The drafts of one node, whose scope is already open. Only the text of a node without
children counts. -/
def ofNode (s : Snapshot) (scope : Scope) (isLeaf : Bool) (n : Node) : List Draft :=
  ofReferences scope n ++
    (if isLeaf && n.characters.isSome then ofBinding scope (Binding.classify s n) else [])

end Draft

namespace Tree

mutual

/-- The drafts of all nodes of a tree. -/
def drafts (s : Snapshot) (scope : Scope) : Tree → List Draft
  | branch _ node children =>
    Draft.ofNode s (scope.enter node) false node ++ draftsAll s (scope.enter node) children
  | leaf _ node => Draft.ofNode s (scope.enter node) true node

def draftsAll (s : Snapshot) (scope : Scope) : List Tree → List Draft
  | [] => []
  | t :: ts => drafts s scope t ++ draftsAll s scope ts

end

mutual

/-- Adds the tokens of a component to a set. -/
def collect (e : Environment) (scope : Scope) : Tree → TokenSet → TokenSet
  | branch _ node children, set =>
    let own := Draft.ofNode e.snapshot (scope.enter node) false node
    collectAll e (scope.enter node) children (set.insertAll (own.map (·.named e.names)))
  | leaf _ node, set =>
    let own := Draft.ofNode e.snapshot (scope.enter node) true node
    set.insertAll (own.map (·.named e.names))

/-- A nested component adds the properties that it declares itself. -/
def collectAll (e : Environment) (scope : Scope) : List Tree → TokenSet → TokenSet
  | [], set => set
  | t :: ts, set =>
    if e.isBoundary t.node then
      collectAll e scope ts (set.insertAll (collect e scope t .empty).tokens)
    else collectAll e scope ts (collect e scope t set)

end

/-- The properties of the component that starts here. -/
def properties (e : Environment) (scope : Scope) (t : Tree) : List Token :=
  (t.collect e scope .empty).tokens

end Tree

end DesignComponents
