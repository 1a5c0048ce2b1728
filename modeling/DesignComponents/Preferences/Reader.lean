import DesignComponents.Preferences.Basic
import DesignComponents.Json.Record

/-! Reading preferences from JSON text. Fields that are missing keep their standard value. -/

namespace DesignComponents.Preferences

open Json (Record Reader)

/-- Preferences of which not all fields are read yet. -/
structure Partial where
  mode : Option Mode
  stylePolicy : Option (Option StylePolicy)
  textElement : Option TextElement
  variants : Option (List Variant)

def Partial.finish (s : Partial) : Preferences :=
  ⟨s.mode.getD standard.mode, s.stylePolicy.getD standard.stylePolicy,
    s.textElement.getD standard.textElement, s.variants.getD standard.variants⟩

def record (depth : Nat) : Record Partial where
  title := "struct GenerationPreferences"
  fields :=
    [{ name := "mode", alias? := none, mayStop := true, filled := (·.mode.isSome),
       read := fun s => do
         let a ← Reader.choice depth Mode.names
         pure { s with mode := some a } },
     { name := "style_policy", alias? := none, mayStop := true, filled := (·.stylePolicy.isSome),
       read := fun s => do
         let a ← Reader.optional (Reader.choice depth StylePolicy.names)
         pure { s with stylePolicy := some a } },
     { name := "text_element", alias? := none, mayStop := true, filled := (·.textElement.isSome),
       read := fun s => do
         let a ← Reader.choice depth TextElement.names
         pure { s with textElement := some a } },
     { name := "variants", alias? := none, mayStop := true, filled := (·.variants.isSome),
       read := fun s => do
         let a ← Reader.list depth (Reader.choice (depth - 1) Variant.names)
         pure { s with variants := some a } }]

/-- The preferences that a text holds. -/
def parse (text : String) : Except Json.Fault Preferences :=
  Reader.ofText
    (Partial.finish <$> Record.read Json.depthLimit record ⟨none, none, none, none⟩) text

end DesignComponents.Preferences
