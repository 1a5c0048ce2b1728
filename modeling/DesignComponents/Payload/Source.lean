import DesignComponents.Markup.Printer
import DesignComponents.Text.Lines

/-! Generated source. A file has the imports and then its components one after the other; the
lines of a component do not depend on the others. The typed variant declares properties by
decorators, the untyped one by a static table and defaults in the constructor. -/

namespace DesignComponents.Payload

/-- An event as generated source uses it. -/
structure Handler where
  name : String
  method : String
  payloadType : String
  deriving DecidableEq, Repr

/-- A rule as generated source uses it. -/
structure Rule where
  selector : String
  declarations : Declarations
  deriving DecidableEq

/-- All that generated source needs to know about a component. -/
structure Component where
  tag : String
  className : String
  rules : List Rule
  properties : List Token
  handlers : List Handler
  markup : String
  deriving DecidableEq

def Component.ofDescriptor (d : Descriptor) (markup : String) : Component where
  tag := d.tag
  className := d.className
  rules := d.styles.map fun r => ⟨r.selector, r.declarations⟩
  properties := d.properties
  handlers := d.events.map fun e => ⟨e.name, e.handler, e.trigger.payloadType⟩
  markup := markup

def ruleLines (r : Rule) : List String :=
  ["    ." ++ r.selector ++ " \x7b"] ++
    r.declarations.entries.map (fun d => "      " ++ d.1 ++ ": " ++ d.2 ++ ";") ++ ["    \x7d"]

def stylesLines (c : Component) : List String :=
  ["  static styles = css`"] ++ c.rules.flatMap ruleLines ++ ["  `;"]

def renderLines (c : Component) : List String :=
  ["", "  render() \x7b", "    return html`", Text.indent 6 c.markup, "    `;", "  \x7d", "\x7d"]

def dispatchLines (h : Handler) : List String :=
  ["    this.dispatchEvent(",
    "      new CustomEvent('" ++ h.name ++
      "', \x7b detail: event, bubbles: true, composed: true \x7d)",
    "    );", "  \x7d"]

def classLine (c : Component) : String :=
  "export class " ++ c.className ++ " extends LitElement \x7b"

def libraryLine : String := "import \x7b LitElement, html, css \x7d from 'lit';"

namespace Typed

def header (cs : List Component) : List String :=
  let property := if cs.any (!·.properties.isEmpty) then ", property" else ""
  [libraryLine,
    "import \x7b customElement" ++ property ++ " \x7d from 'lit/decorators.js';"]

def propertyLines (t : Token) : List String :=
  ["", "  @property(\x7b type: " ++ t.type.converter ++ " \x7d)",
    "  " ++ t.name ++ ": " ++ t.type.name ++ " = " ++ t.default.literal ++ ";"]

def handlerLines (h : Handler) : List String :=
  ["", "  private " ++ h.method ++ "(event: " ++ h.payloadType ++ ") \x7b"] ++ dispatchLines h

def componentLines (c : Component) : List String :=
  ["", "@customElement('" ++ c.tag ++ "')", classLine c] ++ stylesLines c ++
    c.properties.flatMap propertyLines ++ c.handlers.flatMap handlerLines ++ renderLines c

end Typed

namespace Untyped

def header : List String := [libraryLine]

/-- The table of properties; there is none without properties. -/
def tableLines : List Token → List String
  | [] => []
  | t :: ts =>
    ["  static properties = \x7b"] ++
      (t :: ts).map (fun t =>
        "    " ++ t.name ++ ": \x7b type: " ++ t.type.converter ++ " \x7d,") ++
      ["  \x7d;", ""]

/-- The constructor that sets the defaults; there is none without properties. -/
def constructorLines : List Token → List String
  | [] => []
  | t :: ts =>
    ["", "  constructor() \x7b", "    super();"] ++
      (t :: ts).map (fun t => "    this." ++ t.name ++ " = " ++ t.default.literal ++ ";") ++
      ["  \x7d"]

def handlerLines (h : Handler) : List String :=
  ["", "  " ++ h.method ++ "(event) \x7b"] ++ dispatchLines h

def defineLine (c : Component) : String :=
  "customElements.define('" ++ c.tag ++ "', " ++ c.className ++ ");"

def componentLines (c : Component) : List String :=
  ["", classLine c] ++ tableLines c.properties ++ stylesLines c ++
    constructorLines c.properties ++ c.handlers.flatMap handlerLines ++ renderLines c ++
    ["", defineLine c]

end Untyped

/-- The lines of a file; a line may hold line feeds of the values in it. -/
def sourceLines : Variant → List Component → List String
  | .typescript, cs => Typed.header cs ++ cs.flatMap Typed.componentLines
  | .javascript, cs => Untyped.header ++ cs.flatMap Untyped.componentLines

/-- The source text in clean layout. -/
def source (v : Variant) (cs : List Component) : String :=
  Text.tidy (String.join ((sourceLines v cs).map (· ++ "\n")))

end DesignComponents.Payload
