import DesignComponents.Command.Arguments
import DesignComponents.Command.Directory
import DesignComponents.Command.Report
import DesignComponents.Configuration.Reader
import DesignComponents.Document.Reader

/-! Running a command line. The configuration is read before the document, each by a reader of
files that is given from outside, and the first thing that goes wrong ends the run. -/

namespace DesignComponents.Command

inductive Error where
  | configurationUnread (path : String) (e : ReadError)
  | configurationFault (f : Json.Fault)
  | configurationInvalid
  | configurationUnknown
  | documentUnread (e : ReadError)
  | documentFault (f : Json.Fault)
  | generation (f : Failure)
  deriving DecidableEq, Repr

namespace Error

def message : Error → String
  | configurationUnread path e => "Config file " ++ path ++ ": " ++ e.message
  | configurationFault f => "Invalid format: Invalid JSON config: " ++ f.message
  | configurationInvalid => "Invalid format: Invalid TOML config"
  | configurationUnknown => "Invalid format: Config file must be .json or .toml format"
  | documentUnread e => "IO error: " ++ e.message
  | documentFault f => "Invalid document JSON: " ++ f.message
  | generation f => f.message

end Error

/-- What a run leaves behind. -/
structure Outcome where
  output : String
  notices : List Notice
  error : Option Error
  /-- Whether the arguments were wrong. -/
  misused : Bool

namespace Outcome

def code (o : Outcome) : Nat :=
  if o.misused then 2 else if o.error.isSome then 1 else 0

def printed (output : String) (notices : List Notice) : Outcome := ⟨output, notices, none, false⟩

def failed (e : Error) (notices : List Notice) : Outcome := ⟨"", notices, some e, false⟩

/-- The outcome with the notices that are shown at a verbosity. -/
def shown (verbosity : Nat) (o : Outcome) : Outcome :=
  { o with notices := o.notices.filter fun n => n.isWarning || 0 < verbosity }

end Outcome

def usage : String := "Usage: scenegen [OPTIONS] [COMMAND]\n"

def version : String := "scenegen 0.1.0\n"

def noJob : String := "No subcommand specified. Use --help for usage information.\n"

namespace Stop

def outcome : Stop → Outcome
  | misuse => ⟨"", [], none, true⟩
  | help => .printed usage []
  | version => .printed Command.version []

end Stop

/-- The configuration in a file, whose format is known by the end of its path. -/
def configurationOf (path : String) (content : Except ReadError String) :
    Except Error Configuration := do
  let text ← content.mapError (.configurationUnread path)
  if path.endsWith ".json" then (Configuration.parse text).mapError .configurationFault
  else if path.endsWith ".toml" then
    match Configuration.parseToml text with
    | some c => .ok c
    | none => .error .configurationInvalid
  else .error .configurationUnknown

def documentOf (content : Except ReadError String) : Except Error Document := do
  let text ← content.mapError .documentUnread
  (Document.parse text).mapError .documentFault

namespace Action

/-- What an action prints for a document, and what it tells. The host has all answers at hand, so
that none of its queries dies. -/
def perform (a : Action) (d : Document) (p : Preferences) :
    Except Error (String × List Notice) := do
  let loaded := d.load
  let host := Host.ofSnapshot loaded.captured
  let warnings := loaded.scene.warnings host
  let components ← (loaded.scene.analyze host .inOrder p).joined.mapError .generation
  match a with
  | analyze => pure (summaryText components, warnings)
  | generate format =>
    let payloads ← (loaded.scene.generate host .inOrder p).joined.mapError .generation
    let text := match format with
      | .code => codeText payloads
      | .json => jsonText payloads
    pure (text,
      warnings ++ [.generated components.length payloads.length loaded.scene.size])

end Action

namespace Job

def outcome (j : Job) (c : Configuration) (content : Except ReadError String) : Outcome :=
  let result := do
    let d ← documentOf content
    j.action.perform d (j.flags.apply c.preferences)
  match result with
  | .ok (output, notices) => .printed output notices
  | .error e => .failed e []

end Job

/-- Whether files are read in a given way by a run. -/
abbrev FileReader (m : Type → Type) := String → m (Except ReadError String)

variable {m : Type → Type} [Monad m]

/-- Runs a job, if there is one, under a configuration. -/
def runJob (read : FileReader m) (c : Configuration) : Option Job → m Outcome
  | none => pure (.printed noJob [])
  | some j => do pure (j.outcome c (← read j.input))

/-- The configuration of an invocation; without a file it is empty. -/
def configure (read : FileReader m) : Option String → m (Except Error Configuration × List Notice)
  | none => pure (.ok .empty, [])
  | some path => do
    match configurationOf path (← read path) with
    | .ok c => pure (.ok c, [.configurationLoaded path])
    | .error e => pure (.error e, [])

/-- Runs a command line. -/
def run (read : FileReader m) (args : List String) : m Outcome :=
  match Invocation.ofArguments args with
  | .error stop => pure stop.outcome
  | .ok i => do
    match ← configure read i.configuration with
    | (.error e, notices) => pure ((Outcome.failed e notices).shown i.verbosity)
    | (.ok c, notices) =>
      let o ← runJob read c i.job
      pure ({ o with notices := notices ++ o.notices }.shown i.verbosity)

end DesignComponents.Command
