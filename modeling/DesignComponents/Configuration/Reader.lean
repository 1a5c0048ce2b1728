import DesignComponents.Configuration.Basic
import DesignComponents.Json.Record
import DesignComponents.Toml.Reader

/-! Reading configuration files. A file is a JSON record, in which a field may be null, or a TOML
document, in which a name may also be the key of a table that holds an empty one. Fields of
other names do not count. -/

namespace DesignComponents.Configuration

open Json (Record Reader)
open Toml (Item Table)

/-! ### JSON -/

/-- A configuration of which not all fields are read yet. -/
structure Partial where
  mode : Option (Option Mode)
  stylePolicy : Option (Option StylePolicy)
  textElement : Option (Option TextElement)
  variants : Option (Option (List Variant))

def Partial.finish (s : Partial) : Configuration :=
  ⟨s.mode.join, s.stylePolicy.join, s.textElement.join, s.variants.join⟩

def record (depth : Nat) : Record Partial where
  title := "struct ConfigFile"
  fields :=
    [{ name := "mode", alias? := none, mayStop := false, filled := (·.mode.isSome),
       read := fun s => do
         let a ← Reader.optional (Reader.choice depth Mode.names)
         pure { s with mode := some a } },
     { name := "style_policy", alias? := none, mayStop := false,
       filled := (·.stylePolicy.isSome),
       read := fun s => do
         let a ← Reader.optional (Reader.choice depth StylePolicy.names)
         pure { s with stylePolicy := some a } },
     { name := "text_element", alias? := none, mayStop := false,
       filled := (·.textElement.isSome),
       read := fun s => do
         let a ← Reader.optional (Reader.choice depth TextElement.names)
         pure { s with textElement := some a } },
     { name := "variants", alias? := none, mayStop := false, filled := (·.variants.isSome),
       read := fun s => do
         let a ← Reader.optional (Reader.list depth (Reader.choice (depth - 1) Variant.names))
         pure { s with variants := some a } }]

/-- The configuration that a JSON text holds. -/
def parse (text : String) : Except Json.Fault Configuration :=
  Reader.ofText
    (Partial.finish <$> Record.read Json.depthLimit record ⟨none, none, none, none⟩) text

/-! ### TOML -/

/-- Whether an item is an empty list or an empty table. -/
def isHollow : Item → Bool
  | .list items => items.isEmpty
  | .inline entries => entries.isEmpty
  | .table _ entries => entries.isEmpty
  | _ => false

/-- The name in a table that has nothing else in it. -/
def onlyName? : Table → Option String
  | [(name, item)] => if isHollow item then some name else none
  | _ => none

def name? : Item → Option String
  | .text s => some s
  | .inline entries => onlyName? entries
  | .table _ entries => onlyName? entries
  | _ => none

def choice {α : Type} (names : List (String × α)) (item : Item) : Option α := do
  let s ← name? item
  let n ← names.find? fun n => n.1 = s
  pure n.2

/-- The items of a list; tables under one header are a list as well. -/
def items? : Item → Option (List Item)
  | .list items => some items
  | .tables before last => some ((before ++ [last]).map (.table .header))
  | _ => none

/-- The value of a field, which may be missing. -/
def field {α : Type} (read : Item → Option α) (name : String) (t : Table) : Option (Option α) :=
  match t.get? name with
  | none => some none
  | some item => (read item).map some

def ofTables (t : Table) : Option Configuration := do
  let mode ← field (choice Mode.names) "mode" t
  let stylePolicy ← field (choice StylePolicy.names) "style_policy" t
  let textElement ← field (choice TextElement.names) "text_element" t
  let variants ← field (fun i => do (← items? i).mapM (choice Variant.names)) "variants" t
  pure ⟨mode, stylePolicy, textElement, variants⟩

/-- The configuration that a TOML text holds. -/
def parseToml (text : String) : Option Configuration := (Toml.parse text).bind ofTables

end DesignComponents.Configuration
