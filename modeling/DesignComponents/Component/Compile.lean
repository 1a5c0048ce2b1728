import DesignComponents.Component.Blueprint
import DesignComponents.Component.Event
import DesignComponents.Component.Style

/-! Compiling a tree into components. All names are planned first: the tags of the whole tree in
order, then for each component the members that it needs, then the classes, those of nested
components before the one around them. With the finished table every component is read off its
site. -/

namespace DesignComponents

open Identifier (Request Table)

structure Descriptor where
  tag : String
  className : String
  styles : List StyleRule
  properties : List Token
  events : List Event
  root : Blueprint
  origin : NodeId

namespace Descriptor

/-- The events of one node. -/
def eventsOf (d : Descriptor) (id : NodeId) : List Event :=
  d.events.filter (·.origin = id)

end Descriptor

namespace Tree

def tagRequest (n : NodeId × Node) : Request := ⟨.tag, .node n.1, n.2.name⟩

def classRequest (n : NodeId × Node) : Request := ⟨.className, .node n.1, n.2.name⟩

end Tree

namespace Site

/-- The members that a component needs: its properties and then its event handlers. -/
def memberRequests (o : Options) (s : Snapshot) (tags : Table) (site : Site) : List Request :=
  (site.tree.drafts s site.scope).map Draft.request ++
    (site.tree.signals o).map (·.request tags)

def describe (e : Environment) (site : Site) : Descriptor where
  tag := e.tagOf site.tree.id
  className := e.names.nameOf .className (.node site.tree.id)
  styles := site.tree.styles e
  properties := site.tree.properties e site.scope
  events := site.tree.events e
  root := site.tree.blueprint e site.scope
  origin := site.tree.id

end Site

namespace Tree

/-- The tags of all nodes. -/
def planTags (t : Tree) (names : Table) : Table := names.assignAll (t.preorder.map tagRequest)

/-- The names of everything in the components of a tree. -/
def plan (o : Options) (s : Snapshot) (t : Tree) : Table :=
  let tags := t.planTags .empty
  let members := tags.assignAll ((t.sites o).flatMap (·.memberRequests o s tags))
  members.assignAll ((t.starts o).map classRequest)

/-- The environment of a compilation. -/
def environment (o : Options) (s : Snapshot) (t : Tree) : Environment := ⟨o, s, t.plan o s⟩

/-- The components of a tree, that of its root first. -/
def components (o : Options) (s : Snapshot) (t : Tree) : List Descriptor :=
  (t.sites o).map (·.describe (t.environment o s))

end Tree

end DesignComponents
