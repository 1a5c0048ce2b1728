import DesignComponents.Json.Basic

/-! What a caller may choose about a generation: one component or one for each boundary, where
style rules of nested components go, the element for text, and the language variants. -/

namespace DesignComponents

/-- How many components a generation makes. -/
inductive Mode where
  /-- One component for the whole root. -/
  | single
  /-- One component for each component boundary. -/
  | multi
  deriving DecidableEq, Repr

inductive StylePolicy where
  /-- The rules of all nodes below go into the sheet. -/
  | flat
  /-- The rules inside a nested boundary belong to that boundary. -/
  | isolated
  deriving DecidableEq, Repr

inductive TextElement where
  | block
  | inline
  deriving DecidableEq, Repr

inductive Variant where
  | typescript
  | javascript
  deriving DecidableEq, Repr

namespace Mode

def name : Mode → String
  | single => "single"
  | multi => "multi"

def names : List (String × Mode) := [single, multi].map fun m => (m.name, m)

/-- The style policy a mode implies. -/
def stylePolicy : Mode → StylePolicy
  | single => .flat
  | multi => .isolated

end Mode

namespace StylePolicy

def name : StylePolicy → String
  | flat => "flat"
  | isolated => "isolated"

def names : List (String × StylePolicy) := [flat, isolated].map fun p => (p.name, p)

end StylePolicy

namespace TextElement

def name : TextElement → String
  | block => "block"
  | inline => "inline"

def names : List (String × TextElement) := [block, inline].map fun e => (e.name, e)

def tag : TextElement → String
  | block => "div"
  | inline => "span"

end TextElement

namespace Variant

def name : Variant → String
  | typescript => "typescript"
  | javascript => "javascript"

def names : List (String × Variant) := [typescript, javascript].map fun v => (v.name, v)

def label : Variant → String
  | typescript => "TYPESCRIPT"
  | javascript => "JAVASCRIPT"

def title : Variant → String
  | typescript => "Lit Element"
  | javascript => "Lit Element (JavaScript)"

end Variant

structure Preferences where
  mode : Mode
  /-- Replaces the policy that the mode implies. -/
  stylePolicy : Option StylePolicy
  textElement : TextElement
  /-- One payload is made for each, in this order. -/
  variants : List Variant
  deriving DecidableEq, Repr

/-- Preferences with nothing left open. -/
structure Options where
  mode : Mode
  stylePolicy : StylePolicy
  textElement : TextElement
  deriving DecidableEq, Repr

namespace Preferences

def standard : Preferences := ⟨.single, none, .block, [.typescript]⟩

def multi : Preferences := { standard with mode := .multi }

def options (p : Preferences) : Options :=
  ⟨p.mode, p.stylePolicy.getD p.mode.stylePolicy, p.textElement⟩

def toJson (p : Preferences) : Json :=
  .object
    [("mode", .string p.mode.name),
      ("style_policy", Json.ofOption (fun s => .string s.name) p.stylePolicy),
      ("text_element", .string p.textElement.name),
      ("variants", .array (p.variants.map fun v => .string v.name))]

end Preferences

end DesignComponents
