import DesignComponents.Component.Environment

/-! The events of a component. Every exported trigger of an owned node becomes one event, named
after the node's tag and the trigger, with a handler that passes the browser event on. -/

namespace DesignComponents

open Identifier (Request Table)

/-- An exported trigger of a node. -/
structure Signal where
  origin : NodeId
  trigger : Trigger
  deriving DecidableEq, Repr

structure Event where
  name : String
  handler : String
  trigger : Trigger
  origin : NodeId
  deriving DecidableEq, Repr

namespace Node

/-- The exported triggers of a node, each once. -/
def exportedTriggers (n : Node) : List Trigger :=
  ((n.reactions.map Reaction.kind).filter Trigger.isExported).eraseDups

end Node

namespace Signal

def request (names : Table) (s : Signal) : Request :=
  ⟨.member, .event s.origin s.trigger,
    "on " ++ names.tagOf s.origin ++ " " ++ s.trigger.slug⟩

/-- The event with the names that a table gives it. -/
def named (names : Table) (s : Signal) : Event :=
  ⟨names.tagOf s.origin ++ "-" ++ s.trigger.slug,
    names.nameOf .member (.event s.origin s.trigger), s.trigger, s.origin⟩

end Signal

namespace Tree

def signals (o : Options) (t : Tree) : List Signal :=
  (t.owned o).flatMap fun n => n.2.exportedTriggers.map (⟨n.1, ·⟩)

def events (e : Environment) (t : Tree) : List Event :=
  (t.signals e.options).map (·.named e.names)

end Tree

end DesignComponents
