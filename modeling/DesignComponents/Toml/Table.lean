/-! Tables of a TOML document and how its statements build them. A header opens a table or adds
one to a list of tables, and dotted keys reach into tables from the one that is open. Every
table remembers how it came to be, because that decides who may still extend it. -/

namespace DesignComponents.Toml

inductive Origin where
  /-- A header of its own. -/
  | header
  /-- The front of a longer header. -/
  | implied
  /-- The front of a dotted key. -/
  | dotted
  deriving DecidableEq, Repr

inductive Item where
  | text (s : String)
  /-- A number, a truth value or a date. -/
  | scalar
  | list (items : List Item)
  /-- A table between braces, which is complete. -/
  | inline (entries : List (String × Item))
  | table (origin : Origin) (entries : List (String × Item))
  /-- One table for each header; the last one can still grow. -/
  | tables (before : List (List (String × Item))) (last : List (String × Item))

abbrev Table := List (String × Item)

/-- A key with the keys in front of it. -/
structure Key where
  path : List String
  name : String
  deriving DecidableEq, Repr

inductive Statement where
  | openTable (key : Key)
  | addTable (key : Key)
  | assign (key : Key) (value : Item)

namespace Table

/-- Changes the item of a key, or adds one, if the change allows it. -/
def alter (name : String) (change : Option Item → Option Item) : Table → Option Table
  | [] => (change none).map fun item => [(name, item)]
  | e :: es =>
    if e.1 = name then (change (some e.2)).map fun item => (name, item) :: es
    else (alter name change es).map (e :: ·)

/-- Changes the table that an item is, the last one of several. A missing table is made. Dotted
keys do not enter tables that have a header. -/
def enter (origin : Origin) (change : Origin → Table → Option Table) : Option Item → Option Item
  | none => (change origin []).map (.table origin)
  | some (.table found entries) =>
    if origin = .dotted ∧ found = .header then none
    else (change found entries).map (.table found)
  | some (.tables before last) => (change .header last).map (.tables before)
  | some _ => none

/-- Changes the table at the end of a path; the origin is that of tables made on the way. -/
def follow (origin : Origin) (change : Origin → Table → Option Table) :
    List String → Origin → Table → Option Table
  | [], found, t => change found t
  | name :: path, _, t => alter name (enter origin (follow origin change path)) t

/-- Sets a key that is not there yet. Behind dots it has to stand in a table made by dots. -/
def assign (key : Key) (value : Item) (t : Table) : Option Table :=
  let set (found : Origin) (t : Table) : Option Table :=
    if !key.path.isEmpty && found ≠ .dotted then none
    else alter key.name (fun | none => some value | some _ => none) t
  follow .dotted set key.path .header t

/-- Opens the table of a header; an implied one keeps what it has. -/
def openTable (key : Key) (t : Table) : Option Table :=
  let start : Option Item → Option Item
    | none => some (.table .header [])
    | some (.table .implied entries) => some (.table .header entries)
    | some _ => none
  follow .implied (fun _ => alter key.name start) key.path .header t

/-- Adds an empty table to a list of tables. -/
def addTable (key : Key) (t : Table) : Option Table :=
  let start : Option Item → Option Item
    | none => some (.tables [] [])
    | some (.tables before last) => some (.tables (before ++ [last]) [])
    | some _ => none
  follow .implied (fun _ => alter key.name start) key.path .header t

/-- The table that pairs between braces make. -/
def ofPairs (pairs : List (Key × Item)) : Option Table :=
  pairs.foldlM (fun t p => t.assign p.1 p.2) []

/-- A document as far as it is read: all tables, and the path of the open one. -/
structure Progress where
  tables : Table
  here : List String

def step (p : Progress) : Statement → Option Progress
  | .openTable key => (p.tables.openTable key).map (⟨·, key.path ++ [key.name]⟩)
  | .addTable key => (p.tables.addTable key).map (⟨·, key.path ++ [key.name]⟩)
  | .assign key value =>
    (follow .implied (fun _ => assign key value) p.here .header p.tables).map (⟨·, p.here⟩)

/-- The tables that statements build. -/
def ofStatements (statements : List Statement) : Option Table :=
  (statements.foldlM step ⟨[], []⟩).map (·.tables)

def get? (name : String) (t : Table) : Option Item :=
  (List.find? (fun e => e.1 = name) t).map Prod.snd

end Table

end DesignComponents.Toml
