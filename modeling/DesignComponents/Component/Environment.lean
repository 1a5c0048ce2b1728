import DesignComponents.Component.Boundary
import DesignComponents.Component.Token

/-! What the parts of a component are read off from besides the tree: the options, the captured
answers of the host, and the table that names all things. -/

namespace DesignComponents

structure Environment where
  options : Options
  snapshot : Snapshot
  names : Identifier.Table

namespace Environment

def isBoundary (e : Environment) (n : Node) : Bool := e.options.isBoundary n

def tagOf (e : Environment) (id : NodeId) : String := e.names.tagOf id

end Environment

end DesignComponents
