import DesignComponents.Component.Compile

/-! Markup of a component. Elements hold either one run of text on their line or child elements
on lines of their own; text is a list of literal pieces and of members whose value is put in. -/

namespace DesignComponents

open Identifier (Table)

/-- Literal text, or the value of a member. -/
inductive Piece where
  | literal (text : String)
  | member (name : String)
  deriving DecidableEq, Repr

inductive Attribute where
  | styleClass (value : String)
  /-- Calls a handler for a browser event. -/
  | listener (event : String) (handler : String)
  /-- Passes on the property of that name. -/
  | binding (name : String)
  deriving DecidableEq, Repr

inductive Markup where
  | inline (tag : String) (attributes : List Attribute) (content : List Piece)
  | block (tag : String) (attributes : List Attribute) (children : List Markup)

namespace Piece

/-- The member that an entity is bound to; without one the given literal text stays. -/
def bound (names : Table) (entity : Identifier.Entity) (fallback : String) : Piece :=
  match names.lookup .member entity with
  | some name => member name
  | none => literal fallback

def ofSegment (names : Table) : Text.Segment → Piece
  | .literal text => literal text
  | .placeholder body =>
    bound names (Source.placeholder body).entity ("\x7b\x7b" ++ body ++ "\x7d\x7d")

/-- The pieces of a node's text. -/
def ofText (s : Snapshot) (names : Table) (n : Node) : List Piece :=
  let text := n.characters.getD ""
  match Binding.classify s n with
  | .placeholders segments => segments.map (ofSegment names)
  | .property key => [bound names (Source.property key).entity text]
  | .variable id _ => [bound names (Source.variable id).entity text]
  | .literal t => [literal t]

end Piece

namespace Descriptor

def listeners (events : List Event) : List Attribute :=
  events.map fun e => .listener e.trigger.domEvent e.handler

mutual

/-- The markup of a blueprint. An element with events becomes a button, unless it is inside of
one. -/
def markupOf (d : Descriptor) (textOf : Node → List Piece) (inButton : Bool) :
    Blueprint → Markup
  | .boundary _ tag bindings => .inline tag (bindings.map .binding) []
  | .text origin styleClass element node =>
    let events := d.eventsOf origin
    .inline (if !events.isEmpty && !inButton then "button" else element)
      (.styleClass styleClass :: listeners events) (textOf node)
  | .label origin styleClass name =>
    let events := d.eventsOf origin
    .inline (if !events.isEmpty && !inButton then "button" else Blueprint.division)
      (.styleClass styleClass :: listeners events) [.literal name]
  | .container origin styleClass children =>
    let events := d.eventsOf origin
    let asButton := !events.isEmpty && !inButton
    .block (if asButton then "button" else Blueprint.division)
      (.styleClass styleClass :: listeners events)
      (markupOfAll d textOf (inButton || asButton) children)

def markupOfAll (d : Descriptor) (textOf : Node → List Piece) (inButton : Bool) :
    List Blueprint → List Markup
  | [] => []
  | b :: bs => markupOf d textOf inButton b :: markupOfAll d textOf inButton bs

end

end Descriptor

end DesignComponents
