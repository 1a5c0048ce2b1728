import DesignComponents.Scene.Node

/-! Answers of a design tool that were captured once: computed styles by node and display names
by variable. -/

namespace DesignComponents

structure Snapshot where
  styles : OrderedMap NodeId Declarations
  variableNames : OrderedMap VariableId String
  deriving DecidableEq

namespace Snapshot

def empty : Snapshot := ⟨∅, ∅⟩

def withStyle (s : Snapshot) (id : NodeId) (css : Declarations) : Snapshot :=
  { s with styles := s.styles.insert id css }

def withVariable (s : Snapshot) (id : VariableId) (name : String) : Snapshot :=
  { s with variableNames := s.variableNames.insert id name }

def style? (s : Snapshot) (id : NodeId) : Option Declarations := s.styles.find? id

/-- The style of a node; it is empty where none was captured. -/
def style (s : Snapshot) (id : NodeId) : Declarations := (s.style? id).getD ∅

def variableName? (s : Snapshot) (id : VariableId) : Option String := s.variableNames.find? id

end Snapshot

end DesignComponents
