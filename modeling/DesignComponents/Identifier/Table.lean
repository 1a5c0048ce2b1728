import DesignComponents.Identifier.Namespace
import DesignComponents.Scene.Node

/-! The table of generated identifiers. A thing gets its name on first request and keeps it: its
base, or the base with the first free number behind an underscore if others have the base
already. Names that every component class has are never given to members. -/

namespace DesignComponents.Identifier

/-- What a generated identifier stands for. -/
inductive Entity where
  | node (id : NodeId)
  | variable (id : VariableId)
  /-- A component property, by its key. -/
  | property (key : String)
  /-- A placeholder, by the base of its body. -/
  | placeholder (name : String)
  | event (id : NodeId) (trigger : Trigger)
  deriving DecidableEq, Repr

/-- Members that every generated class has from the start. -/
def reservedMembers : List String :=
  ["render", "styles", "properties", "constructor", "connectedCallback", "disconnectedCallback",
    "updated", "firstUpdated", "requestUpdate", "dispatchEvent", "shadowRoot", "renderRoot"]

structure Entry where
  space : Namespace
  entity : Entity
  name : String
  deriving DecidableEq, Repr

/-- A wish for the name of an entity that is displayed as `raw`. -/
structure Request where
  space : Namespace
  entity : Entity
  raw : String
  deriving DecidableEq, Repr

/-- The names given so far, last one first. -/
structure Table where
  entries : List Entry
  deriving DecidableEq, Repr

namespace Table

def empty : Table := ⟨[]⟩

def size (t : Table) : Nat := t.entries.length

def lookup (t : Table) (space : Namespace) (entity : Entity) : Option String :=
  (t.entries.find? fun e => e.space = space && e.entity = entity).map Entry.name

/-- The names that a namespace reserves. -/
def reserved : Namespace → List String
  | .member => reservedMembers
  | _ => []

/-- The names that nothing new in a namespace may get. -/
def taken (t : Table) (space : Namespace) : List String :=
  reserved space ++ (t.entries.filter fun e => e.space = space).map Entry.name

/-- The base itself, or the base with a number. -/
def numbered (base : String) : Nat → String
  | 0 => base
  | k + 1 => base ++ "_" ++ toString (k + 1)

/-- The first numbered name from `k` on that is not taken. Among one more candidates than there
are taken names one is free. -/
def firstFree (taken : List String) (base : String) : Nat → Nat → String
  | 0, k => numbered base k
  | fuel + 1, k =>
    if numbered base k ∈ taken then firstFree taken base fuel (k + 1) else numbered base k

def fresh (t : Table) (space : Namespace) (base : String) : String :=
  let taken := t.taken space
  firstFree taken base taken.length 0

/-- Gives an entity its name, unless it has one. -/
def assign (t : Table) (r : Request) : Table :=
  match t.lookup r.space r.entity with
  | some _ => t
  | none => ⟨⟨r.space, r.entity, t.fresh r.space (r.space.normalize r.raw)⟩ :: t.entries⟩

def assignAll (t : Table) (rs : List Request) : Table := rs.foldl assign t

/-- The name of an entity; it is empty before the first request. -/
def nameOf (t : Table) (space : Namespace) (entity : Entity) : String :=
  (t.lookup space entity).getD ""

def tagOf (t : Table) (id : NodeId) : String := t.nameOf .tag (.node id)

end Table

end DesignComponents.Identifier
