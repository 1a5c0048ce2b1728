import DesignComponents.Document.Basic
import DesignComponents.Json.Record
import DesignComponents.Json.Value

/-! Reading design documents from JSON text. Every struct of the format is a record, so it may
be written as an object or as a list; a node needs a name and a type, and all else in it may
be missing. -/

namespace DesignComponents

open Json (Record Field Reader)

namespace PropertyValue

/-- A property value of which not all fields are read yet. -/
structure Partial where
  kind : Option PropertyKind
  value : Option Json

def record (depth : Nat) : Record Partial where
  title := "struct ComponentPropertyValue"
  fields :=
    [{ name := "type", alias? := none, mayStop := false, filled := (·.kind.isSome),
       read := fun s => do
         let k ← Reader.choice depth PropertyKind.names
         pure { s with kind := some k } },
     { name := "value", alias? := some "defaultValue", mayStop := false,
       filled := (·.value.isSome),
       read := fun s => do
         let v ← Reader.value depth
         pure { s with value := some v } }]

def read (depth : Nat) : Reader PropertyValue := do
  let s ← Record.read depth record ⟨none, none⟩
  let kind ← Reader.required "type" s.kind
  let value ← Reader.required "value" s.value
  pure ⟨kind, value⟩

end PropertyValue

namespace Reaction

/-- The type of a trigger, which is all of it that counts. -/
def readTrigger (depth : Nat) : Reader String := do
  let record (_ : Nat) : Record (Option String) :=
    { title := "struct TriggerSpec"
      fields :=
        [{ name := "type", alias? := none, mayStop := false, filled := Option.isSome,
           read := fun _ => some <$> Reader.string }] }
  let s ← Record.read depth record none
  Reader.required "type" s

/-- A reaction; the trigger may be missing or null. The state is set once it was given. -/
def read (depth : Nat) : Reader Reaction := do
  let record (d : Nat) : Record (Option (Option String)) :=
    { title := "struct Reaction"
      fields :=
        [{ name := "trigger", alias? := none, mayStop := true, filled := Option.isSome,
           read := fun _ => some <$> Reader.optional (readTrigger d) }] }
  let s ← Record.read depth record none
  pure ⟨s.getD none⟩

end Reaction

namespace DocumentNode

/-- A node of which not all fields are read yet. -/
structure Partial where
  name : Option String
  kind : Option NodeKind
  children : Option (Option (List DocumentNode))
  characters : Option (Option String)
  css : Option Declarations
  reactions : Option (List Reaction)
  boundVariable : Option (Option VariableId)
  definitions : Option PropertyMap
  values : Option PropertyMap
  references : Option (OrderedMap String String)

def Partial.start : Partial :=
  ⟨none, none, none, none, none, none, none, none, none, none⟩

/-- The fields of a node whose children are read as given. -/
def record (child : Reader DocumentNode) (depth : Nat) : Record Partial where
  title := "struct DocumentNode"
  fields :=
    [{ name := "name", alias? := none, mayStop := false, filled := (·.name.isSome),
       read := fun s => do
         let a ← Reader.string
         pure { s with name := some a } },
     { name := "type", alias? := none, mayStop := false, filled := (·.kind.isSome),
       read := fun s => do
         let a ← Reader.string
         pure { s with kind := some (NodeKind.ofName a) } },
     { name := "children", alias? := none, mayStop := true, filled := (·.children.isSome),
       read := fun s => do
         let a ← Reader.optional (Reader.list depth child)
         pure { s with children := some a } },
     { name := "characters", alias? := none, mayStop := true, filled := (·.characters.isSome),
       read := fun s => do
         let a ← Reader.optional Reader.string
         pure { s with characters := some a } },
     { name := "css", alias? := none, mayStop := true, filled := (·.css.isSome),
       read := fun s => do
         let a ← Reader.map depth fun _ => Reader.string
         pure { s with css := some a } },
     { name := "reactions", alias? := none, mayStop := true, filled := (·.reactions.isSome),
       read := fun s => do
         let a ← Reader.list depth (Reaction.read (depth - 1))
         pure { s with reactions := some a } },
     { name := "boundVariable", alias? := none, mayStop := true,
       filled := (·.boundVariable.isSome),
       read := fun s => do
         let a ← Reader.optional Reader.string
         pure { s with boundVariable := some a } },
     { name := "componentPropertyDefinitions", alias? := none, mayStop := true,
       filled := (·.definitions.isSome),
       read := fun s => do
         let a ← Reader.map depth PropertyValue.read
         pure { s with definitions := some a } },
     { name := "componentProperties", alias? := none, mayStop := true,
       filled := (·.values.isSome),
       read := fun s => do
         let a ← Reader.map depth PropertyValue.read
         pure { s with values := some a } },
     { name := "componentPropertyReferences", alias? := none, mayStop := true,
       filled := (·.references.isSome),
       read := fun s => do
         let a ← Reader.map depth fun _ => Reader.string
         pure { s with references := some a } }]

def readWith (depth : Nat) (child : Reader DocumentNode) : Reader DocumentNode := do
  let s ← Record.read depth (record child) .start
  let name ← Reader.required "name" s.name
  let kind ← Reader.required "type" s.kind
  let node : Node :=
    { name, kind
      characters := s.characters.getD none
      boundVariable := s.boundVariable.getD none
      reactions := s.reactions.getD []
      definitions := s.definitions.getD ∅
      values := s.values.getD ∅
      references := s.references.getD ∅ }
  pure (.mk node (s.css.getD ∅) (s.children.getD none))

/-- A child is two brackets deeper than its parent, one for its own and one for the list. -/
def read : Nat → Reader DocumentNode
  | 0 => readWith 0 (Json.Reader.fail .tooDeep)
  | 1 => readWith 1 (Json.Reader.fail .tooDeep)
  | depth + 2 => readWith (depth + 2) (read depth)

end DocumentNode

namespace Document

structure Partial where
  root : Option (Option DocumentNode)
  variableNames : Option (OrderedMap VariableId String)

def record (depth : Nat) : Record Partial where
  title := "struct Document"
  fields :=
    [{ name := "root", alias? := none, mayStop := true, filled := (·.root.isSome),
       read := fun s => do
         let a ← Reader.optional (DocumentNode.read depth)
         pure { s with root := some a } },
     { name := "variables", alias? := none, mayStop := true, filled := (·.variableNames.isSome),
       read := fun s => do
         let a ← Reader.map depth fun _ => Reader.string
         pure { s with variableNames := some a } }]

def read (depth : Nat) : Reader Document := do
  let s ← Record.read depth record ⟨none, none⟩
  pure ⟨s.root.getD none, s.variableNames.getD ∅⟩

/-- The document that a text holds. -/
def parse (text : String) : Except Json.Fault Document :=
  Json.Reader.ofText (read Json.depthLimit) text

end Document

end DesignComponents
