import DesignComponents.Payload.Generate

/-! What the actions print: payloads as source or as JSON, and summaries of components. -/

namespace DesignComponents

def Source.toJson (s : Source) : Json :=
  .object [("kind", .string s.kind), ("key", .string s.key)]

def Token.toJson (t : Token) : Json :=
  .object
    [("name", .string t.name), ("source", t.source.toJson), ("type", .string t.type.name),
      ("default", t.default.toJson)]

def Event.toJson (e : Event) : Json :=
  .object
    [("name", .string e.name), ("handler", .string e.handler),
      ("dom_event", .string e.trigger.domEvent), ("payload_type", .string e.trigger.payloadType)]

/-- A summary: of the rules it gives their number and how many are empty. -/
def Descriptor.summary (d : Descriptor) : Json :=
  .object
    [("tag", .string d.tag), ("class_name", .string d.className),
      ("style_rules", Json.ofNat d.styles.length),
      ("empty_style_rules", Json.ofNat (d.styles.countP (·.declarations.isEmpty))),
      ("properties", .array (d.properties.map Token.toJson)),
      ("events", .array (d.events.map Event.toJson))]

namespace Command

/-- A JSON list, one entry a line. -/
def listText (items : List Json) : String := (Json.array items).pretty 0 ++ "\n"

/-- The line in front of the code of one of several payloads. -/
def heading (p : Payload) : String :=
  "// ===== " ++ p.title ++ " (" ++ p.language ++ ") =====\n"

/-- The code of payloads. A single one stands alone, others have headings. -/
def codeText : List Payload → String
  | [p] => p.code
  | ps => String.intercalate "\n" (ps.map fun p => heading p ++ p.code)

def jsonText (ps : List Payload) : String := listText (ps.map Payload.toJson)

def summaryText (ds : List Descriptor) : String := listText (ds.map Descriptor.summary)

end Command

end DesignComponents
