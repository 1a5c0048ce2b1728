import DesignComponents.Component.Binding
import DesignComponents.Component.Scope
import DesignComponents.Identifier.Table
import DesignComponents.Json.Printer
import DesignComponents.Text.Literal

/-! Tokens, the dynamic values that a component declares as properties. A draft is a token that
has no name yet: it knows where the value comes from, how that is displayed, and the type and
default of the value. -/

namespace DesignComponents

open Identifier (Entity Namespace Request Table)

inductive PropertyType where
  | string
  | boolean
  deriving DecidableEq, Repr

namespace PropertyType

/-- The word for the type in reports. -/
def name : PropertyType → String
  | string => "string"
  | boolean => "boolean"

/-- The property converter. -/
def converter : PropertyType → String
  | string => "String"
  | boolean => "Boolean"

end PropertyType

/-- The default of a property. -/
inductive Default where
  | text (s : String)
  | flag (b : Bool)
  deriving DecidableEq, Repr

namespace Default

def ofType : PropertyType → Default
  | .string => text ""
  | .boolean => flag false

/-- The default as a literal of generated source. -/
def literal : Default → String
  | text s => Text.quote s
  | flag b => if b then "true" else "false"

def toJson : Default → Json
  | text s => .string s
  | flag b => .bool b

end Default

/-- Where the value of a token comes from. -/
inductive Source where
  | placeholder (body : String)
  | variable (id : VariableId)
  | property (key : String)
  deriving DecidableEq, Repr

namespace Source

/-- The entity that the name of the token stands for. Placeholders with one base share it. -/
def entity : Source → Entity
  | placeholder body => .placeholder (Namespace.member.normalize body)
  | .variable id => .variable id
  | property key => .property key

def kind : Source → String
  | placeholder _ => "placeholder"
  | .variable _ => "variable"
  | property _ => "component_property"

def key : Source → String
  | placeholder body => body
  | .variable id => id
  | property key => key

end Source

structure Token where
  name : String
  source : Source
  type : PropertyType
  default : Default
  deriving DecidableEq, Repr

structure Draft where
  source : Source
  label : String
  type : PropertyType
  default : Default
  deriving DecidableEq, Repr

namespace Draft

def request (d : Draft) : Request := ⟨.member, d.source.entity, d.label⟩

/-- The token with the name that a table gives it. -/
def named (names : Table) (d : Draft) : Token :=
  ⟨names.nameOf .member d.source.entity, d.source, d.type, d.default⟩

/-- A string with an empty default. -/
def text (source : Source) (label : String) : Draft :=
  ⟨source, label, .string, Default.ofType .string⟩

end Draft

/-- The part of a property key in front of its first number sign. -/
def propertyLabel (key : String) : String :=
  String.ofList (key.toList.takeWhile (· ≠ '#'))

/-- Type and default of a property with the given value. -/
def propertyDefault : Option PropertyValue → PropertyType × Default
  | none => (.string, .text "")
  | some ⟨.boolean, .bool b⟩ => (.boolean, .flag b)
  | some ⟨.boolean, _⟩ => (.boolean, .flag false)
  | some ⟨_, .string s⟩ => (.string, .text s)
  | some ⟨_, .null⟩ => (.string, .text "")
  | some ⟨_, v⟩ => (.string, .text v.compact)

namespace Draft

def property (scope : Scope) (key : String) : Draft :=
  let (type, default) := propertyDefault (scope.resolve key)
  ⟨.property key, propertyLabel key, type, default⟩

def ofSegment : Text.Segment → Option Draft
  | .literal _ => none
  | .placeholder body => some (text (.placeholder body) body)

/-- The drafts of what a text is bound to. -/
def ofBinding (scope : Scope) : Binding → List Draft
  | .placeholders segments => segments.filterMap ofSegment
  | .property key => [property scope key]
  | .variable id name => [text (.variable id) name]
  | .literal _ => []

/-- The drafts of all property references of a node. -/
def ofReferences (scope : Scope) (n : Node) : List Draft :=
  n.references.values.map (property scope)

end Draft

/-- Tokens with different names, in order; of several with one name the first one stays. -/
structure TokenSet where
  tokens : List Token
  deriving DecidableEq, Repr

namespace TokenSet

def empty : TokenSet := ⟨[]⟩

def contains (s : TokenSet) (name : String) : Bool := s.tokens.any (·.name = name)

def insert (s : TokenSet) (t : Token) : TokenSet :=
  if s.contains t.name then s else ⟨s.tokens ++ [t]⟩

def insertAll (s : TokenSet) (ts : List Token) : TokenSet := ts.foldl insert s

end TokenSet

end DesignComponents
