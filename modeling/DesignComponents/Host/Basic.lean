import DesignComponents.Host.Snapshot

/-! The design tool as a host that is asked for styles and variable names. An answer is a value,
an error, or nothing at all because the query died. A host that is unavailable ends the
request; any other error costs only the answer. A query that dies takes with it whatever awaits
it, up to the task that it runs in: the task is joined with a failure, but what awaits the query
in no task is never resumed. -/

namespace DesignComponents

inductive HostError where
  | unavailable (message : String)
  | queryFailed (node : Option NodeId) (message : String)
  deriving DecidableEq, Repr

namespace HostError

/-- Whether the whole request has to end. -/
def isFatal : HostError → Bool
  | unavailable _ => true
  | queryFailed _ _ => false

def nodeText : Option NodeId → String
  | none => "None"
  | some id => "Some(NodeId(" ++ toString id ++ "))"

def message : HostError → String
  | unavailable m => "Host unavailable: " ++ m
  | queryFailed node m => "Query failed for node " ++ nodeText node ++ ": " ++ m

end HostError

/-- The written form of a place in a scene. -/
def NodeId.text (id : NodeId) : String := "#" ++ toString id

inductive Answer (α : Type) where
  | value (a : α)
  | error (e : HostError)
  | dies

/-- Why a request gives no result. -/
inductive Failure where
  | noRoot
  | host (e : HostError)
  | taskFailed
  deriving DecidableEq, Repr

namespace Failure

def message : Failure → String
  | noRoot => "No root node to generate from"
  | host e => "Host error: " ++ e.message
  | taskFailed => "Host query task failed"

end Failure

/-- How a computation ends that awaits queries: with a result, or with a query that dies. -/
inductive Ending (α : Type) where
  | result (r : Except Failure α)
  | dies

namespace Ending

variable {α β : Type}

/-- What a task that ran the computation is joined with. -/
def joined : Ending α → Except Failure α
  | result r => r
  | dies => .error .taskFailed

def bind (x : Ending α) (f : α → Ending β) : Ending β :=
  match x with
  | result (.ok a) => f a
  | result (.error e) => result (.error e)
  | dies => dies

instance : Monad Ending where
  pure a := result (.ok a)
  bind := bind

instance : MonadLift Ending (Except Failure) := ⟨joined⟩

end Ending

namespace Answer

variable {α : Type}

/-- The value, or the given one in place of an answer that failed softly. -/
def orElse (fallback : α) : Answer α → Ending α
  | value a => .result (.ok a)
  | error e => .result (if e.isFatal then .error (.host e) else .ok fallback)
  | dies => .dies

end Answer

structure Host where
  style : NodeId → Answer Declarations
  /-- No name means that the host does not know the variable. -/
  variableName : VariableId → Answer (Option String)

namespace Host

/-- The host that answers from a snapshot. -/
def ofSnapshot (s : Snapshot) : Host where
  style id := .value (s.style id)
  variableName id := .value (s.variableName? id)

/-- Gives another answer for the style of one node. -/
def withStyle (h : Host) (id : NodeId) (a : Answer Declarations) : Host :=
  { h with style := fun i => if i = id then a else h.style i }

/-- Gives another answer for the name of one variable. -/
def withVariable (h : Host) (id : VariableId) (a : Answer (Option String)) : Host :=
  { h with variableName := fun i => if i = id then a else h.variableName i }

end Host

end DesignComponents
