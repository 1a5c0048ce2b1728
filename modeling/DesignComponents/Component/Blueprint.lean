import DesignComponents.Component.Properties

/-! Blueprints, the structural trees of components. A nested component is one element that
passes properties on; every other node is an element with the node's tag as its class. -/

namespace DesignComponents

inductive Blueprint where
  | boundary (origin : NodeId) (tag : String) (bindings : List String)
  /-- An element that shows the text of a node. -/
  | text (origin : NodeId) (styleClass : String) (element : String) (node : Node)
  /-- An element that shows the display name of a node without text and children. -/
  | label (origin : NodeId) (styleClass : String) (name : String)
  | container (origin : NodeId) (styleClass : String) (children : List Blueprint)

namespace Blueprint

def origin : Blueprint → NodeId
  | boundary origin _ _ => origin
  | text origin _ _ _ => origin
  | label origin _ _ => origin
  | container origin _ _ => origin

/-- The element of containers and labels. -/
def division : String := "div"

end Blueprint

namespace Tree

mutual

/-- The blueprint of the component that starts here. -/
def blueprint (e : Environment) (scope : Scope) : Tree → Blueprint
  | branch id node children =>
    .container id (e.tagOf id) (blueprintAll e (scope.enter node) children)
  | leaf id node =>
    if node.characters.isSome then .text id (e.tagOf id) e.options.textElement.tag node
    else .label id (e.tagOf id) node.name

def blueprintAll (e : Environment) (scope : Scope) : List Tree → List Blueprint
  | [] => []
  | t :: ts =>
    (if e.isBoundary t.node then
      .boundary t.id (e.tagOf t.id) ((t.properties e scope).map Token.name)
    else blueprint e scope t) :: blueprintAll e scope ts

end

end Tree

end DesignComponents
