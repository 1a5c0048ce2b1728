import DesignComponents.OrderedMap
import DesignComponents.Json.Basic

/-! Nodes of a design: their kinds, the triggers they react to, the component properties they
define, set and refer to. -/

namespace DesignComponents

/-- A place in a scene. -/
abbrev NodeId := Nat

/-- The design tool's name for a variable. -/
abbrev VariableId := String

/-- Computed style of a node, in the order the design tool gives it. -/
abbrev Declarations := OrderedMap String String

inductive NodeKind where
  | component
  | componentSet
  | componentInstance
  | frame
  | group
  | canvasSection
  | text
  | shape
  deriving DecidableEq, Repr

namespace NodeKind

/-- The kind with the given type name. Unknown types are shapes. -/
def ofName (name : String) : NodeKind :=
  if name = "COMPONENT" then component
  else if name = "COMPONENT_SET" then componentSet
  else if name = "INSTANCE" then componentInstance
  else if name = "FRAME" then frame
  else if name = "GROUP" then group
  else if name = "SECTION" then canvasSection
  else if name = "TEXT" then text
  else shape

def name : NodeKind → String
  | component => "COMPONENT"
  | componentSet => "COMPONENT_SET"
  | componentInstance => "INSTANCE"
  | frame => "FRAME"
  | group => "GROUP"
  | canvasSection => "SECTION"
  | text => "TEXT"
  | shape => "SHAPE"

/-- Whether a node of this kind may start a component of its own. -/
def startsComponent : NodeKind → Bool
  | component | componentInstance | frame => true
  | _ => false

/-- Whether a node of this kind carries a list of children. -/
def isContainer : NodeKind → Bool
  | text | shape => false
  | _ => true

theorem ofName_name (k : NodeKind) : ofName k.name = k := by
  cases k <;> decide

end NodeKind

inductive Trigger where
  | none
  | click
  | hover
  | press
  | mouseDown
  | other
  deriving DecidableEq, Repr

namespace Trigger

def ofName (name : String) : Trigger :=
  if name = "ON_CLICK" then click
  else if name = "ON_HOVER" then hover
  else if name = "MOUSE_ENTER" then hover
  else if name = "ON_PRESS" then press
  else if name = "MOUSE_DOWN" then mouseDown
  else other

/-- The short word used in event names. -/
def slug : Trigger → String
  | none => "none"
  | click => "click"
  | hover => "hover"
  | press => "press"
  | mouseDown => "mousedown"
  | other => "other"

/-- Whether a component emits an event for the trigger. -/
def isExported : Trigger → Bool
  | click | hover | press | mouseDown => true
  | none | other => false

/-- The browser event a handler listens to. -/
def domEvent : Trigger → String
  | hover => "mouseenter"
  | press => "pointerdown"
  | mouseDown => "mousedown"
  | _ => "click"

/-- The type of that event's payload. -/
def payloadType : Trigger → String
  | press => "PointerEvent"
  | _ => "MouseEvent"

end Trigger

/-- A reaction to a trigger, which the design tool names; the name may be missing. -/
structure Reaction where
  trigger : Option String
  deriving DecidableEq, Repr

namespace Reaction

def kind (r : Reaction) : Trigger :=
  match r.trigger with
  | some name => Trigger.ofName name
  | none => .none

/-- A reaction to the given kind of trigger. -/
def on : Trigger → Reaction
  | .none => ⟨none⟩
  | .click => ⟨some "ON_CLICK"⟩
  | .hover => ⟨some "ON_HOVER"⟩
  | .press => ⟨some "ON_PRESS"⟩
  | .mouseDown => ⟨some "MOUSE_DOWN"⟩
  | .other => ⟨some "AFTER_TIMEOUT"⟩

theorem kind_on (t : Trigger) : (on t).kind = t := by
  cases t <;> decide

end Reaction

inductive PropertyKind where
  | boolean
  | text
  | instanceSwap
  | variant
  deriving DecidableEq, Repr

namespace PropertyKind

def name : PropertyKind → String
  | boolean => "BOOLEAN"
  | text => "TEXT"
  | instanceSwap => "INSTANCE_SWAP"
  | variant => "VARIANT"

def all : List PropertyKind := [boolean, text, instanceSwap, variant]

def names : List (String × PropertyKind) := all.map fun k => (k.name, k)

end PropertyKind

/-- The default of a component property, or the value an instance sets. -/
structure PropertyValue where
  kind : PropertyKind
  value : Json

abbrev PropertyMap := OrderedMap String PropertyValue

/-- What a node holds apart from its children. -/
structure Node where
  name : String
  kind : NodeKind
  characters : Option String
  boundVariable : Option VariableId
  reactions : List Reaction
  /-- Properties a component defines, by key. -/
  definitions : PropertyMap
  /-- Property values an instance sets, by key. -/
  values : PropertyMap
  /-- The property key each field refers to. -/
  references : OrderedMap String String

namespace Node

/-- A node without text, reactions and properties. -/
def plain (kind : NodeKind) (name : String) : Node :=
  { name, kind, characters := none, boundVariable := none, reactions := [], definitions := ∅,
    values := ∅, references := ∅ }

/-- The property key that the text refers to. -/
def textReference (n : Node) : Option String :=
  n.references.find? "characters"

end Node

end DesignComponents
