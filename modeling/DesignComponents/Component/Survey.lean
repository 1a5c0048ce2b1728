import DesignComponents.Component.Compile

/-! A survey of one component: its nodes and the boundaries among them, its events, properties
and rules, each with the names they get when nothing else was named before. -/

namespace DesignComponents

open Identifier (Table)

structure Survey where
  nodes : List NodeId
  boundaries : List NodeId
  events : List Event
  properties : List Token
  styles : List StyleRule
  names : Table

namespace Tree

/-- Names for the events, the properties and the rules of the component that starts here, on
top of names given before. -/
def planSurvey (o : Options) (s : Snapshot) (scope : Scope) (t : Tree) (names : Table) : Table :=
  let eventful := (t.owned o).filter fun n => !n.2.exportedTriggers.isEmpty
  let tags := names.assignAll ((eventful ++ t.styled o).map tagRequest)
  tags.assignAll
    ((t.signals o).map (·.request tags) ++ (t.drafts s scope).map Draft.request)

/-- Surveys the component that starts here; the root of the scene is no boundary. -/
def survey (o : Options) (s : Snapshot) (scope : Scope) (root : NodeId) (names : Table)
    (t : Tree) : Survey :=
  let e : Environment := ⟨o, s, t.planSurvey o s scope names⟩
  let nodes := t.walk o
  { nodes := nodes.map Prod.fst
    boundaries := (nodes.filter fun n => n.1 ≠ root && o.isBoundary n.2).map Prod.fst
    events := t.events e
    properties := t.properties e scope
    styles := t.styles e
    names := e.names }

end Tree

end DesignComponents
