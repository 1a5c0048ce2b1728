import DesignComponents.Host.Query
import DesignComponents.Proofs.Collections
import DesignComponents.Proofs.Host.Arrival
import DesignComponents.Proofs.Scene.Outline

/-! Asking a host that answers every query or fails softly. The tasks may complete in any order:
the styles come in the order of the tree and the names are those that the host knows. -/

namespace DesignComponents

namespace Ending

variable {α β : Type}

@[simp] theorem ok_bind (a : α) (f : α → Ending β) : result (.ok a) >>= f = f a := rfl

@[simp] theorem error_bind (e : Failure) (f : α → Ending β) :
    result (.error e) >>= f = result (.error e) := rfl

@[simp] theorem dies_bind (f : α → Ending β) : (dies : Ending α) >>= f = dies := rfl

theorem result_ne_dies {r : Except Failure α} : result r ≠ dies := by rintro ⟨⟩

end Ending

namespace Answer

variable {α : Type}

/-- The host answered, or failed with an error that costs only the answer. -/
def Soft : Answer α → Prop
  | value _ | error (.queryFailed _ _) => True
  | error (.unavailable _) | dies => False

/-- The value of an answer, or the given one. -/
def getD (fallback : α) : Answer α → α
  | value a => a
  | error _ | dies => fallback

theorem Soft.orElse_eq {a : Answer α} (h : a.Soft) (fallback : α) :
    a.orElse fallback = .result (.ok (a.getD fallback)) := by
  cases a with
  | value a => rfl
  | error e =>
    cases e with
    | unavailable message => exact h.elim
    | queryFailed node message => rfl
  | dies => exact h.elim

/-- Only an answer brings something that is not there otherwise. -/
theorem getD_none_eq_some_iff {a : Answer (Option α)} {x : α} :
    a.getD none = some x ↔ a = .value (some x) := by
  cases a <;> simp [getD]

end Answer

namespace Host

variable (h : Host) (schedule : Schedule)

/-- A node and the declarations that the host gives it; there are none where it failed. -/
def entry (i : NodeId) : NodeId × Declarations := (i, (h.style i).getD ∅)

theorem queryStylesAll_eq (ts : List Tree) :
    h.queryStylesAll schedule ts = ts.map fun t => (h.queryStyles schedule t).joined := by
  induction ts with
  | nil => rfl
  | cons t ts ih => rw [queryStylesAll, ih, List.map_cons]

/-- The styles of a tree are the entries of its nodes in depth-first order. -/
theorem queryStyles_eq {t : Tree} (hs : ∀ i ∈ t.ids, (h.style i).Soft) :
    h.queryStyles schedule t = .result (.ok (t.ids.map h.entry)) := by
  induction t with
  | leaf id node =>
    have hown := hs id (by simp)
    rw [queryStyles, hown.orElse_eq]
    rfl
  | branch id node children ih =>
    have hown := hs id (by simp)
    have hall : h.queryStylesAll schedule children =
        (children.map fun c => c.ids.map h.entry).map .ok := by
      rw [queryStylesAll_eq, List.map_map]
      refine List.map_congr_left fun c hc => ?_
      rw [ih c hc fun i hi => hs i (Tree.ids_subset_branch id node hc hi)]
      rfl
    have hjoin := join_arrivals_ok hall (schedule.child id)
    simp only [queryStyles, hjoin, hown.orElse_eq, Ending.ok_bind]
    rw [Tree.ids_branch, List.map_cons, List.map_flatMap, List.flatMap_def]
    rfl

theorem mem_boundVariables {t : Tree} {v : VariableId} :
    v ∈ boundVariables t ↔ ∃ n ∈ t.preorder, n.2.boundVariable = some v := by
  rw [boundVariables, List.mem_eraseDups, List.mem_filterMap]

/-- The names that the host gives to the variables of a tree. -/
def names (t : Tree) : List (VariableId × String) :=
  (boundVariables t).filterMap fun v => ((h.variableName v).getD none).map fun name => (v, name)

theorem nameTask_of_soft {v : VariableId} (hv : (h.variableName v).Soft) :
    h.nameTask v = .ok (((h.variableName v).getD none).map fun n => (v, n)) := by
  rw [nameTask, hv.orElse_eq]
  rfl

theorem queryVariables_eq {t : Tree} (hv : ∀ v ∈ boundVariables t, (h.variableName v).Soft) :
    h.queryVariables schedule t = .ok (h.names t) := by
  have hall : (boundVariables t).map h.nameTask =
      ((boundVariables t).map fun v =>
        ((h.variableName v).getD none).map fun n => (v, n)).map .ok := by
    rw [List.map_map]
    exact List.map_congr_left fun v hm => h.nameTask_of_soft (hv v hm)
  have hjoin := join_arrivals_ok hall schedule.name
  simp only [queryVariables, hjoin, bind, Except.bind]
  rw [List.filterMap_map]
  rfl

theorem mem_names {t : Tree} {v : VariableId} {name : String} :
    (v, name) ∈ h.names t ↔ v ∈ boundVariables t ∧ h.variableName v = .value (some name) := by
  simp only [names, List.mem_filterMap, Option.map_eq_some_iff, Prod.mk.injEq,
    Answer.getD_none_eq_some_iff]
  constructor
  · rintro ⟨v', hv, name', hn, rfl, rfl⟩
    exact ⟨hv, hn⟩
  · rintro ⟨hv, ha⟩
    exact ⟨v, hv, name, ha, rfl, rfl⟩

theorem nodup_keys_names (t : Tree) : ((h.names t).map Prod.fst).Nodup := by
  rw [names, map_fst_filterMap]
  exact (nodup_eraseDups _).filter _

end Host

namespace Scene

/-- A variable is bound by a node that can be reached. -/
def Binds (s : Scene) (start : NodeId) (v : VariableId) : Prop :=
  ∃ i node, s.Reaches start i ∧ s.node? i = some node ∧ node.boundVariable = some v

theorem Shows.mem_boundVariables {s : Scene} {t : Tree} (h : s.Shows t) {v : VariableId} :
    v ∈ Host.boundVariables t ↔ s.Binds t.id v := by
  rw [Host.mem_boundVariables]
  constructor
  · rintro ⟨n, hn, hv⟩
    obtain ⟨hr, hnode⟩ := h.mem_preorder.mp hn
    exact ⟨n.1, n.2, hr, hnode, hv⟩
  · rintro ⟨i, node, hr, hnode, hv⟩
    exact ⟨(i, node), h.mem_preorder.mpr ⟨hr, hnode⟩, hv⟩

end Scene

namespace Host

/-- Whatever the order in which the tasks complete, a host that answers or fails softly gives
every node below the start one entry, in the order of the walk, and its names to the variables
bound there. -/
theorem query_any_schedule {scene : Scene} (hb : scene.Built) {start : Nat}
    (hs : start < scene.size) (h : Host) (hstyle : ∀ i, scene.Reaches start i → (h.style i).Soft)
    (hname : ∀ v, scene.Binds start v → (h.variableName v).Soft) :
    ∃ t order snapshot,
      scene.tree? start = some t ∧
        (∀ limit, scene.size ≤ limit → scene.descendants limit start = order) ∧
        order.Nodup ∧ (∀ i, i ∈ order ↔ scene.Reaches start i) ∧
        (∀ schedule,
          h.queryStyles schedule t =
              .result (.ok (order.map fun i => (i, (h.style i).getD ∅))) ∧
            h.query schedule t = .result (.ok snapshot)) ∧
        snapshot.styles.entries = order.map (fun i => (i, (h.style i).getD ∅)) ∧
        ∀ v name, snapshot.variableName? v = some name ↔
          scene.Binds start v ∧ h.variableName v = .value (some name) := by
  obtain ⟨t, ht, hsh, rfl⟩ := hb.forest.tree?_shows hs
  have hnodup := hsh.nodup_ids hb.forest
  have hstyles : ∀ schedule, h.queryStyles schedule t = .result (.ok (t.ids.map h.entry)) :=
    fun schedule => h.queryStyles_eq schedule fun i hi => hstyle i (hsh.mem_ids.mp hi)
  have hnames : ∀ schedule, h.queryVariables schedule t = .ok (h.names t) := fun schedule =>
    h.queryVariables_eq schedule fun v hv => hname v (hsh.mem_boundVariables.mp hv)
  refine ⟨t, t.ids, ⟨.ofList (t.ids.map h.entry), .ofList (h.names t)⟩, ht,
    fun limit hl => hsh.descendants_eq hb.forest hl, hnodup, fun i => hsh.mem_ids,
    fun schedule => ⟨hstyles schedule, ?_⟩, ?_, fun v name => ?_⟩
  · simp only [query, hstyles, hnames, Ending.ok_bind]
    rfl
  · refine OrderedMap.entries_ofList ?_
    rw [List.map_map]
    exact (List.map_id t.ids).symm ▸ hnodup
  · rw [Snapshot.variableName?, OrderedMap.find?_ofList_iff (h.nodup_keys_names t), mem_names,
      hsh.mem_boundVariables]

/-- A host that fails at the card of the page and knows the variable of the footer. -/
def cardHost : Host where
  style i := if i = 1 then .error (.queryFailed (some 1) "detached")
    else .value (.ofList [("order", toString i)])
  variableName v := .value (if v = "v" then some "Label" else none)

theorem cardHost_query_any_schedule :
    Scene.cardPage.Built ∧ 0 < Scene.cardPage.size ∧ (∀ i, (cardHost.style i).Soft) ∧
      (∀ v, (cardHost.variableName v).Soft) ∧
      ∃ t order snapshot,
        Scene.cardPage.tree? 0 = some t ∧
          (∀ limit, Scene.cardPage.size ≤ limit → Scene.cardPage.descendants limit 0 = order) ∧
          order.Nodup ∧ (∀ i, i ∈ order ↔ Scene.cardPage.Reaches 0 i) ∧
          (∀ schedule,
            cardHost.queryStyles schedule t =
                .result (.ok (order.map fun i => (i, (cardHost.style i).getD ∅))) ∧
              cardHost.query schedule t = .result (.ok snapshot)) ∧
          snapshot.styles.entries = order.map (fun i => (i, (cardHost.style i).getD ∅)) ∧
          ∀ v name, snapshot.variableName? v = some name ↔
            Scene.cardPage.Binds 0 v ∧ cardHost.variableName v = .value (some name) := by
  have hstyle : ∀ i, (cardHost.style i).Soft := by
    intro i
    simp only [cardHost]
    split_ifs <;> trivial
  have hname : ∀ v, (cardHost.variableName v).Soft := fun v => trivial
  exact ⟨Scene.cardPage_built, by decide, hstyle, hname,
    query_any_schedule Scene.cardPage_built (by decide) cardHost (fun i _ => hstyle i)
      fun v _ => hname v⟩

end Host

end DesignComponents
