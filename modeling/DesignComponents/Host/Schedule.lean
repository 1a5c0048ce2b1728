/-! The order in which concurrent tasks complete, and joining their results. Every task has a
time of completion; tasks that complete at the same time do so in the order they were started.
Results are put back into the order of the tasks, and the first failure to arrive ends the
wait. -/

namespace DesignComponents

/-- Inserts before the first item with a time that is not earlier. -/
def insertByTime {α : Type} (time : α → Nat) (a : α) : List α → List α
  | [] => [a]
  | b :: bs => if time a ≤ time b then a :: b :: bs else b :: insertByTime time a bs

/-- The items in order of their times; items of one time keep their order. -/
def arrivals {α : Type} (time : α → Nat) : List α → List α
  | [] => []
  | a :: as => insertByTime time a (arrivals time as)

/-- Takes in results as they arrive, each into the slot of its task. -/
def takeIn {ε α : Type} (results : List (Except ε α)) :
    List Nat → List (Option α) → Except ε (List (Option α))
  | [], slots => .ok slots
  | i :: order, slots =>
    match results[i]? with
    | none => takeIn results order slots
    | some (.error e) => .error e
    | some (.ok a) => takeIn results order (slots.set i (some a))

/-- Joins tasks that complete in the given order. -/
def join {ε α : Type} (order : List Nat) (results : List (Except ε α)) : Except ε (List α) :=
  (takeIn results order (List.replicate results.length none)).map fun slots =>
    slots.filterMap id

/-- The times at which the queries of a request complete. -/
structure Schedule where
  /-- The time of the task for the `k`-th child of a node. -/
  child : Nat → Nat → Nat
  /-- The time of the task for the `k`-th variable. -/
  name : Nat → Nat

namespace Schedule

/-- Every task completes in the order it was started. -/
def inOrder : Schedule := ⟨fun _ _ => 0, fun _ => 0⟩

end Schedule

end DesignComponents
