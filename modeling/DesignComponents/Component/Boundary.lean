import DesignComponents.Component.Scope
import DesignComponents.Preferences.Basic
import DesignComponents.Scene.Tree

/-! Component boundaries. With one component for each boundary, every component, instance and
frame below the root starts a component of its own; a component owns the nodes that are reached
without passing a nested boundary. -/

namespace DesignComponents

/-- Whether a node below the start of a component starts a nested one. -/
def Options.isBoundary (o : Options) (n : Node) : Bool :=
  o.mode = .multi && n.kind.startsComponent

namespace Tree

mutual

/-- The nodes of the component that starts here. Nested boundaries are listed but not
entered. -/
def walk (o : Options) : Tree → List (NodeId × Node)
  | branch id node children => (id, node) :: walkAll o children
  | leaf id node => [(id, node)]

def walkAll (o : Options) : List Tree → List (NodeId × Node)
  | [] => []
  | t :: ts =>
    (if o.isBoundary t.node then [(t.id, t.node)] else walk o t) ++ walkAll o ts

end

mutual

/-- The nodes of the component that starts here, without nested boundaries. -/
def owned (o : Options) : Tree → List (NodeId × Node)
  | branch id node children => (id, node) :: ownedAll o children
  | leaf id node => [(id, node)]

def ownedAll (o : Options) : List Tree → List (NodeId × Node)
  | [] => []
  | t :: ts => (if o.isBoundary t.node then [] else owned o t) ++ ownedAll o ts

end

end Tree

/-- The start of a component with the property scope around it. -/
structure Site where
  scope : Scope
  tree : Tree

namespace Tree

mutual

/-- The sites inside the tree, each before those inside of it. -/
def nestedSites (o : Options) (scope : Scope) : Tree → List Site
  | branch _ node children => nestedSitesAll o (scope.enter node) children
  | leaf _ _ => []

def nestedSitesAll (o : Options) (scope : Scope) : List Tree → List Site
  | [] => []
  | t :: ts =>
    (if o.isBoundary t.node then ⟨scope, t⟩ :: nestedSites o scope t else nestedSites o scope t) ++
      nestedSitesAll o scope ts

end

/-- All sites of a tree, its own start first. -/
def sites (o : Options) (t : Tree) : List Site :=
  ⟨.empty, t⟩ :: t.nestedSites o .empty

mutual

/-- The starts of nested components, each after those inside of it. -/
def nestedStarts (o : Options) : Tree → List (NodeId × Node)
  | branch _ _ children => nestedStartsAll o children
  | leaf _ _ => []

def nestedStartsAll (o : Options) : List Tree → List (NodeId × Node)
  | [] => []
  | t :: ts =>
    nestedStarts o t ++ (if o.isBoundary t.node then [(t.id, t.node)] else []) ++
      nestedStartsAll o ts

end

/-- The starts of all components, each after those inside of it. -/
def starts (o : Options) (t : Tree) : List (NodeId × Node) :=
  t.nestedStarts o ++ [(t.id, t.node)]

end Tree

end DesignComponents
