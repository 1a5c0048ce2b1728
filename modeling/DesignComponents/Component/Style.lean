import DesignComponents.Component.Environment

/-! The style rules of a component: one for every node whose rule the policy puts into its
sheet, selected by the node's tag. -/

namespace DesignComponents

structure StyleRule where
  selector : String
  declarations : Declarations
  origin : NodeId
  deriving DecidableEq

namespace Tree

/-- The nodes whose rules belong to the sheet of the component that starts here. -/
def styled (o : Options) (t : Tree) : List (NodeId × Node) :=
  match o.stylePolicy with
  | .flat => t.preorder
  | .isolated => t.owned o

def styles (e : Environment) (t : Tree) : List StyleRule :=
  (t.styled e.options).map fun n => ⟨e.tagOf n.1, e.snapshot.style n.1, n.1⟩

end Tree

end DesignComponents
