import DesignComponents.Document.Basic
import DesignComponents.Json.Printer

/-! Design documents as JSON values. Fields stand in a fixed order; a node's children, text and
bound variable are left out when they are missing, all other fields are always there. -/

namespace DesignComponents

def OrderedMap.toJson {α : Type} (f : α → Json) (m : OrderedMap String α) : Json :=
  .object (m.entries.map fun e => (e.1, f e.2))

def PropertyValue.toJson (v : PropertyValue) : Json :=
  .object [("type", .string v.kind.name), ("value", v.value)]

def Reaction.toJson (r : Reaction) : Json :=
  .object [("trigger", Json.ofOption (fun t => .object [("type", .string t)]) r.trigger)]

namespace DocumentNode

/-- A field that is left out when its value is missing. -/
def optionalField {α : Type} (name : String) (f : α → Json) : Option α → List (String × Json)
  | none => []
  | some a => [(name, f a)]

mutual

def toJson : DocumentNode → Json
  | mk node css children =>
    .object <|
      [("name", .string node.name), ("type", .string node.kind.name)] ++
      (match children with
        | none => []
        | some ns => [("children", .array (toJsonAll ns))]) ++
      optionalField "characters" .string node.characters ++
      [("css", css.toJson .string), ("reactions", .array (node.reactions.map Reaction.toJson))] ++
      optionalField "boundVariable" .string node.boundVariable ++
      [("componentPropertyDefinitions", node.definitions.toJson PropertyValue.toJson),
        ("componentProperties", node.values.toJson PropertyValue.toJson),
        ("componentPropertyReferences", node.references.toJson .string)]

def toJsonAll : List DocumentNode → List Json
  | [] => []
  | n :: ns => toJson n :: toJsonAll ns

end

end DocumentNode

namespace Document

def toJson (d : Document) : Json :=
  .object [("root", Json.ofOption DocumentNode.toJson d.root),
    ("variables", d.variableNames.toJson .string)]

/-- The document's text. -/
def print (d : Document) : String := d.toJson.compact

end Document

end DesignComponents
