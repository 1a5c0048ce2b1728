import DesignComponents.Host.Basic

/-! What a run tells besides its result: warnings about answers it had to do without, and
information on what it has done. -/

namespace DesignComponents

inductive Notice where
  | styleMissing (id : NodeId)
  | variableUnknown (id : VariableId)
  | variableMissing (id : VariableId)
  | configurationLoaded (path : String)
  | generated (components variants nodes : Nat)
  deriving DecidableEq, Repr

namespace Notice

/-- Whether the notice is a warning, which is always shown. -/
def isWarning : Notice → Bool
  | styleMissing _ | variableUnknown _ | variableMissing _ => true
  | configurationLoaded _ | generated _ _ _ => false

def level (n : Notice) : String := if n.isWarning then "WARN" else "INFO"

def message : Notice → String
  | styleMissing id =>
    "Style query for node " ++ NodeId.text id ++ " failed; emitting an empty rule"
  | variableUnknown id => "Variable " ++ id ++ " is unknown to the host; text stays literal"
  | variableMissing id => "Variable " ++ id ++ " could not be resolved; text stays literal"
  | configurationLoaded path => "Loaded configuration from " ++ path
  | generated components variants nodes =>
    "Generated " ++ toString components ++ " component(s) in " ++ toString variants ++
      " variant(s) from " ++ toString nodes ++ " node(s)"

end Notice

end DesignComponents
