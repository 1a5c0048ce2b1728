import DesignComponents.Json.Reader
import DesignComponents.OrderedMap

/-! Records with named fields. A record is written as an object, or as a list that gives the
fields in their order. In an object unknown fields are passed over and no field may come
twice; a list may stop early where the fields left may be missing. -/

namespace DesignComponents.Json

/-- How one field of a record is read into the state gathered so far. -/
structure Field (σ : Type) where
  name : String
  /-- A second spelling of the name. -/
  alias? : Option String
  /-- Whether a list may stop before this field. -/
  mayStop : Bool
  filled : σ → Bool
  read : σ → Reader σ

namespace Field

variable {σ : Type}

def answersTo (f : Field σ) (key : String) : Bool :=
  f.name = key || f.alias? = some key

end Field

/-- The record's title in messages, its fields in order. -/
structure Record (σ : Type) where
  title : String
  fields : List (Field σ)

namespace Record

variable {σ : Type}

def elements (n : Nat) : String :=
  toString n ++ (if n = 1 then " element" else " elements")

/-- One field of the object form. A repeated field is refused before its value is read. -/
def objectField (r : Record σ) (key : String) (s : σ) : Reader σ := do
  match r.fields.find? (·.answersTo key) with
  | some f =>
    if f.filled s then Reader.fail (.duplicateField f.name)
    else
      Reader.colon
      f.read s
  | none =>
    Reader.colon
    Reader.skip
    pure s

/-- The fields of the list form; the number counts the entries read so far. -/
def listFields (r : Record σ) : Nat → List (Field σ) → σ → Reader σ
  | _, [], s => pure s
  | n, f :: fs, s => do
    if ← Reader.hasNext (n == 0) then
      let s ← f.read s
      listFields r (n + 1) fs s
    else if f.mayStop then listFields r n fs s
    else
      Reader.fail (.wrongLength n (r.title ++ " with " ++ elements r.fields.length))

/-- Reads a record at the given depth; the fields may depend on the depth left inside. -/
def read (depth : Nat) (r : Nat → Record σ) (start : σ) : Reader σ := do
  match ← Reader.peek with
  | some '{' => Reader.objectHere depth (fun d key s => (r d).objectField key s) start
  | some '[' =>
    Reader.opened depth fun d => do
      let s ← (r d).listFields 0 (r d).fields start
      Reader.endList
      pure s
  | _ => Reader.mismatch (r 0).title

end Record

namespace Reader

/-- The value of a field that has to be there. -/
def required {α : Type} (name : String) : Option α → Reader α
  | some a => pure a
  | none => fail (.missingField name)

/-- Reads a string and finds it in a fixed list of names. -/
def nameIn {α : Type} (names : List (String × α)) : Reader α := do
  let s ← stringHere
  match names.find? fun n => n.1 = s with
  | some n => pure n.2
  | none => fail (.unknownVariant s (names.map Prod.fst))

/-- A name out of a fixed list, written as a string or as the key of an object that holds null. -/
def choice {α : Type} (depth : Nat) (names : List (String × α)) : Reader α := do
  match ← peek with
  | some '"' => nameIn names
  | some '{' =>
    opened depth fun _ => do
      let a ←
        match ← peek with
        | some '"' => nameIn names
        | some '}' => fail .expectedValue
        | some _ => fail .keyNotString
        | none => fail .endInObject
      colon
      unit
      match ← peek with
      | some '}' => advance; pure a
      | some _ => fail .expectedValue
      | none => fail .endInObject
  | some _ => fail .expectedValue
  | none => fail .endInValue

/-- An object of arbitrary keys, in order; the value of a repeated key replaces the one before. -/
def map {α : Type} (depth : Nat) (read : Nat → Reader α) : Reader (OrderedMap String α) := do
  match ← peek with
  | some '{' =>
    let step (d : Nat) (key : String) (m : OrderedMap String α) : Reader (OrderedMap String α) := do
      colon
      let v ← read d
      pure (m.insert key v)
    objectHere depth step ∅
  | _ => mismatch "a map"

end Reader

end DesignComponents.Json
