import DesignComponents.Host.Schedule
import DesignComponents.Notice
import DesignComponents.Scene.Tree

/-! Asking a host about a subtree. The tasks for the children of a node run at the same time and
are joined before the node's own style is asked for, in the task of the node itself; the
variables bound anywhere in the subtree are asked for afterwards, each once and each in a task.
The node that the query starts at is in no task. -/

namespace DesignComponents

namespace Host

mutual

/-- The styles of a subtree, each node before its children. -/
def queryStyles (h : Host) (schedule : Schedule) : Tree → Ending (List (NodeId × Declarations))
  | .leaf id _ => do
    let css ← (h.style id).orElse ∅
    pure [(id, css)]
  | .branch id _ children => do
    let results := queryStylesAll h schedule children
    let below ← .result (join (arrivals (schedule.child id) (List.range results.length)) results)
    let css ← (h.style id).orElse ∅
    pure ((id, css) :: below.flatten)

/-- What the tasks for the children of a node are joined with. -/
def queryStylesAll (h : Host) (schedule : Schedule) :
    List Tree → List (Except Failure (List (NodeId × Declarations)))
  | [] => []
  | t :: ts => (queryStyles h schedule t).joined :: queryStylesAll h schedule ts

end

/-- The variables bound in a subtree, each once, in order of first use. -/
def boundVariables (t : Tree) : List VariableId :=
  (t.preorder.filterMap fun n => n.2.boundVariable).eraseDups

/-- The task that asks for the name of one variable. -/
def nameTask (h : Host) (v : VariableId) : Except Failure (Option (VariableId × String)) := do
  let name ← (h.variableName v).orElse none
  pure (name.map fun n => (v, n))

/-- The names of the variables that the host knows. -/
def queryVariables (h : Host) (schedule : Schedule) (t : Tree) :
    Except Failure (List (VariableId × String)) := do
  let results := (boundVariables t).map h.nameTask
  let names ← join (arrivals schedule.name (List.range results.length)) results
  .ok (names.filterMap id)

/-- All answers for a subtree. -/
def query (h : Host) (schedule : Schedule) (t : Tree) : Ending Snapshot := do
  let styles ← h.queryStyles schedule t
  let names ← .result (h.queryVariables schedule t)
  pure ⟨OrderedMap.ofList styles, OrderedMap.ofList names⟩

/-- The warnings of a query that went through. -/
def notices (h : Host) (t : Tree) : List Notice :=
  let ofStyle (n : NodeId × Node) : Option Notice :=
    match h.style n.1 with
    | .error _ => some (.styleMissing n.1)
    | _ => none
  let ofVariable (v : VariableId) : Option Notice :=
    match h.variableName v with
    | .value none => some (.variableUnknown v)
    | .error _ => some (.variableMissing v)
    | _ => none
  t.preorder.filterMap ofStyle ++ (boundVariables t).filterMap ofVariable

end Host

end DesignComponents
