import DesignComponents.Preferences.Flags

/-! Arguments of a command line. They are read from left to right, and the first one that is wrong
or asks for help or the version ends the reading. An option that takes a value finds it
behind an equals sign, directly behind its letter, or in the next argument, which must not
look like an option itself. -/

namespace DesignComponents.Command

/-- One argument by its form. -/
inductive Word where
  | value (text : String)
  /-- Two hyphens; all arguments behind them are values. -/
  | separator
  | long (name : String) (attached : Option String)
  | short (letters : List Char)
  deriving DecidableEq, Repr

namespace Word

def ofLong (cs : List Char) : Word :=
  let name := String.ofList (cs.takeWhile (· ≠ '='))
  match cs.dropWhile (· ≠ '=') with
  | [] => long name none
  | _ :: attached => long name (some (String.ofList attached))

def ofText (text : String) : Word :=
  match text.toList with
  | ['-'] => value text
  | ['-', '-'] => separator
  | '-' :: '-' :: cs => ofLong cs
  | '-' :: cs => short cs
  | _ => value text

end Word

/-- How payloads are printed. -/
inductive Format where
  | code
  | json
  deriving DecidableEq, Repr

def Format.names : List (String × Format) := [("code", .code), ("json", .json)]

inductive Action where
  | generate (format : Format)
  | analyze
  deriving DecidableEq, Repr

/-- An action on the document in a file. -/
structure Job where
  action : Action
  input : String
  flags : Flags
  deriving DecidableEq, Repr

structure Invocation where
  configuration : Option String
  verbosity : Nat
  job : Option Job
  deriving DecidableEq, Repr

/-- Why arguments give no invocation. -/
inductive Stop where
  | misuse
  | help
  | version
  deriving DecidableEq, Repr

/-- The words that name an action. -/
inductive Verb where
  | generate
  | analyze
  | help
  deriving DecidableEq, Repr

def Verb.names : List (String × Verb) :=
  [("generate", .generate), ("analyze", .analyze), ("help", .help)]

/-- All that arguments have given so far. -/
structure Given where
  configuration : Option String
  verbosity : Nat
  verb : Option Verb
  /-- The input, or the topic of help. -/
  operand : Option String
  mode : Option Mode
  stylePolicy : Option StylePolicy
  textElement : Option TextElement
  variants : List Variant
  format : Option Format

namespace Given

def nothing : Given := ⟨none, 0, none, none, none, none, none, [], none⟩

def flags (g : Given) : Flags := ⟨g.mode, g.stylePolicy, g.textElement, g.variants⟩

end Given

/-- Sets what may be set only once. -/
def once {α : Type} (old : Option α) (new : α) : Except Stop (Option α) :=
  match old with
  | none => .ok (some new)
  | some _ => .error .misuse

def pick {α : Type} (names : List (String × α)) (text : String) : Except Stop α :=
  match names.find? fun n => n.1 = text with
  | some n => .ok n.2
  | none => .error .misuse

inductive Effect where
  | act (change : Given → Except Stop Given)
  | take (change : String → Given → Except Stop Given)

/-- An option with its spellings. -/
structure Switch where
  long : String
  short : Option Char
  effect : Effect

def helpSwitch : Switch := ⟨"help", some 'h', .act fun _ => .error .help⟩

/-- The options in front of the action. -/
def outerSwitches : List Switch :=
  [⟨"config", some 'c', .take fun text g => do
      pure { g with configuration := ← once g.configuration text }⟩,
    ⟨"verbose", some 'v', .act fun g => pure { g with verbosity := g.verbosity + 1 }⟩,
    ⟨"version", some 'V', .act fun _ => .error .version⟩,
    helpSwitch]

/-- The options of both actions. -/
def jobSwitches : List Switch :=
  [⟨"mode", some 'm', .take fun text g => do
      pure { g with mode := ← once g.mode (← pick Mode.names text) }⟩,
    ⟨"style-policy", none, .take fun text g => do
      pure { g with stylePolicy := ← once g.stylePolicy (← pick StylePolicy.names text) }⟩,
    ⟨"text-element", none, .take fun text g => do
      pure { g with textElement := ← once g.textElement (← pick TextElement.names text) }⟩,
    ⟨"variant", none, .take fun text g => do
      pure { g with variants := g.variants ++ [← pick Variant.names text] }⟩,
    helpSwitch]

def formatSwitch : Switch :=
  ⟨"format", some 'f', .take fun text g => do
    pure { g with format := ← once g.format (← pick Format.names text) }⟩

def switchesFor : Option Verb → List Switch
  | none => outerSwitches
  | some .generate => formatSwitch :: jobSwitches
  | some .analyze => jobSwitches
  | some .help => []

/-- A place in the arguments. -/
structure Cursor where
  given : Given
  /-- The option that waits for its value. -/
  pending : Option (String → Given → Except Stop Given)
  /-- Whether the separator was met. -/
  onlyValues : Bool

namespace Cursor

def start : Cursor := ⟨.nothing, none, false⟩

def switches (c : Cursor) : List Switch := switchesFor c.given.verb

def update (c : Cursor) (given : Except Stop Given) : Except Stop Cursor :=
  given.map fun g => { c with given := g, pending := none }

/-- A value that belongs to no option. -/
def value (c : Cursor) (text : String) : Except Stop Cursor :=
  match c.given.verb with
  | none =>
    if c.onlyValues then .error .misuse
    else c.update ((pick Verb.names text).map fun v => { c.given with verb := some v })
  | some .help =>
    c.update do
      let _ ← pick Verb.names text
      pure { c.given with operand := ← once c.given.operand text }
  | some _ => c.update do pure { c.given with operand := ← once c.given.operand text }

def long (c : Cursor) (name : String) (attached : Option String) : Except Stop Cursor :=
  match c.switches.find? (·.long = name), attached with
  | none, _ => .error .misuse
  | some ⟨_, _, .act change⟩, none => c.update (change c.given)
  | some ⟨_, _, .act _⟩, some _ => .error .misuse
  | some ⟨_, _, .take change⟩, none => .ok { c with pending := some change }
  | some ⟨_, _, .take change⟩, some text => c.update (change text c.given)

/-- Options by their letters; the first one that takes a value gets the letters behind it. -/
def short : List Char → Cursor → Except Stop Cursor
  | [], c => .ok c
  | l :: ls, c =>
    match c.switches.find? (·.short = some l) with
    | none => .error .misuse
    | some ⟨_, _, .act change⟩ => do short ls (← c.update (change c.given))
    | some ⟨_, _, .take change⟩ =>
      match ls with
      | [] => .ok { c with pending := some change }
      | '=' :: cs => c.update (change (String.ofList cs) c.given)
      | _ :: _ => c.update (change (String.ofList ls) c.given)

def word (c : Cursor) : Word → Except Stop Cursor
  | .value text =>
    match c.pending with
    | some change => c.update (change text c.given)
    | none => c.value text
  | w =>
    match c.pending, w with
    | some _, _ => .error .misuse
    | none, .long name attached => c.long name attached
    | none, .short letters => short letters c
    | none, _ => .ok { c with onlyValues := true }

/-- Takes one more argument. Help wants names of actions only. -/
def step (c : Cursor) (text : String) : Except Stop Cursor :=
  if c.onlyValues ∨ c.given.verb = some .help then c.value text else c.word (.ofText text)

/-- What the arguments ask for, once all of them are taken. -/
def finish (c : Cursor) : Except Stop Invocation :=
  let g := c.given
  let job (action : Action) : Except Stop Invocation :=
    match g.operand with
    | some input => .ok ⟨g.configuration, g.verbosity, some ⟨action, input, g.flags⟩⟩
    | none => .error .misuse
  match c.pending, g.verb with
  | some _, _ => .error .misuse
  | none, none => .ok ⟨g.configuration, g.verbosity, none⟩
  | none, some .generate => job (.generate (g.format.getD .code))
  | none, some .analyze => job .analyze
  | none, some .help => .error .help

end Cursor

namespace Invocation

/-- The invocation that arguments spell. -/
def ofArguments (args : List String) : Except Stop Invocation := do
  (← args.foldlM Cursor.step Cursor.start).finish

end Invocation

end DesignComponents.Command
