import DesignComponents.Proofs.Host.Completion

/-! Asking a host that may fail. Whatever the order in which the tasks complete, a query of a tree
ends in one of five ways: with the failure of a style below the start, with what the style of the
start does to it (two ways), with the failure of a name, or with all answers. The style of the
start is the only answer that is awaited in no task; if that query dies there is no result. -/

namespace DesignComponents

namespace Answer

variable {α : Type}

/-- The answer fails the task that awaits it, which is then joined with the given failure. -/
inductive Fails : Answer α → Failure → Prop
  | unavailable (message : String) :
      Fails (.error (.unavailable message)) (.host (.unavailable message))
  | dies : Fails .dies .taskFailed

theorem Fails.joined_orElse {a : Answer α} {f : Failure} (h : a.Fails f) (fallback : α) :
    (a.orElse fallback).joined = .error f := by
  cases h <;> rfl

theorem Fails.joined_bind {β : Type} {a : Answer α} {f : Failure} (h : a.Fails f) (fallback : α)
    (rest : α → Ending β) : (a.orElse fallback >>= rest).joined = .error f := by
  cases h <;> rfl

theorem soft_or_fails (a : Answer α) : a.Soft ∨ ∃ f, a.Fails f := by
  cases a with
  | value a => exact .inl trivial
  | error e =>
    cases e with
    | unavailable message => exact .inr ⟨_, .unavailable message⟩
    | queryFailed node message => exact .inl trivial
  | dies => exact .inr ⟨_, .dies⟩

theorem Fails.ne_noRoot {a : Answer α} {f : Failure} (h : a.Fails f) : f ≠ .noRoot := by
  cases h <;> simp

theorem Fails.not_soft {a : Answer α} {f : Failure} (h : a.Fails f) : ¬ a.Soft := by
  cases h <;> exact id

end Answer

namespace Tree

/-- The places below the node that a tree starts with. -/
def idsBelow (t : Tree) : List NodeId := t.children.flatMap ids

theorem ids_eq_cons (t : Tree) : t.ids = t.id :: t.idsBelow := by
  cases t with
  | leaf id node => rfl
  | branch id node children => exact ids_branch id node children

theorem forall_mem_ids {t : Tree} {p : NodeId → Prop} :
    (∀ i ∈ t.ids, p i) ↔ p t.id ∧ ∀ i ∈ t.idsBelow, p i := by
  rw [ids_eq_cons, List.forall_mem_cons]

theorem mem_idsBelow {t : Tree} (h : t.ids.Nodup) {i : NodeId} :
    i ∈ t.idsBelow ↔ i ∈ t.ids ∧ i ≠ t.id := by
  rw [ids_eq_cons] at h ⊢
  rw [List.mem_cons]
  constructor
  · exact fun hi => ⟨.inr hi, fun he => (List.nodup_cons.mp h).1 (he ▸ hi)⟩
  · exact fun ⟨hi, hne⟩ => hi.resolve_left hne

end Tree

namespace Host

variable (h : Host) (schedule : Schedule)

/-- The style of a node gives a request that starts at a node a failure to report. All such queries
but that of the start run in tasks, and only of those it is reported that they died. -/
inductive StyleFails (start i : NodeId) : Failure → Prop
  | unavailable {message : String} (he : h.style i = .error (.unavailable message)) :
      StyleFails start i (.host (.unavailable message))
  | dies (hi : i ≠ start) (he : h.style i = .dies) : StyleFails start i .taskFailed

theorem StyleFails.fails {start i : NodeId} {f : Failure} (hf : h.StyleFails start i f) :
    (h.style i).Fails f := by
  cases hf with
  | unavailable he => exact he ▸ .unavailable _
  | dies hi he => exact he ▸ .dies

theorem styleFails_of_fails {start i : NodeId} {f : Failure} (hi : i ≠ start)
    (hf : (h.style i).Fails f) : h.StyleFails start i f := by
  generalize ha : h.style i = a at hf
  cases hf with
  | unavailable message => exact .unavailable ha
  | dies => exact .dies hi ha

/-- The task for a tree brings all of its styles, or is joined with the failure of one of them. -/
def TaskEnds (t : Tree) : Prop :=
  (∀ i ∈ t.ids, (h.style i).Soft) ∨
    ∃ f, (h.queryStyles schedule t).joined = .error f ∧ ∃ i ∈ t.ids, (h.style i).Fails f

/-- Either the task for a child fails, or all go through and the node's own style is asked for. -/
theorem queryStyles_of_tasks {t : Tree} (hc : ∀ c ∈ t.children, h.TaskEnds schedule c) :
    (∃ f, h.queryStyles schedule t = .result (.error f) ∧
        ∃ i ∈ t.idsBelow, (h.style i).Fails f) ∨
      (∀ i ∈ t.idsBelow, (h.style i).Soft) ∧ ∃ entries, h.queryStyles schedule t =
        (h.style t.id).orElse ∅ >>= fun css => pure ((t.id, css) :: entries) := by
  cases t with
  | leaf id node => exact .inr ⟨List.forall_mem_nil _, [], rfl⟩
  | branch id node children =>
    rw [queryStyles]
    rcases join_arrivals_cases (h.queryStylesAll schedule children) (schedule.child id) with
      ⟨values, hjoin, hnone⟩ | ⟨f, hjoin, hf⟩
    · refine .inr ⟨fun i hi => ?_, values.flatten, by simp only [hjoin, Ending.ok_bind]; rfl⟩
      obtain ⟨c, hm, hi⟩ := List.mem_flatMap.mp hi
      refine (hc c hm).resolve_right ?_ i hi
      rintro ⟨f, hf, -⟩
      rw [queryStylesAll_eq] at hnone
      exact hnone f (hf ▸ List.mem_map_of_mem hm)
    · rw [queryStylesAll_eq] at hf
      obtain ⟨c, hm, he⟩ := List.mem_map.mp hf
      refine .inl ⟨f, by simp only [hjoin, Ending.error_bind], ?_⟩
      rcases hc c hm with hsoft | ⟨f', hf', i, hi, hfails⟩
      · rw [h.queryStyles_eq schedule hsoft] at he
        cases he
      · obtain rfl := Except.error.inj (hf'.symm.trans he)
        exact ⟨i, List.mem_flatMap.mpr ⟨c, hm, hi⟩, hfails⟩

/-- In a task it makes no difference which of the nodes a query dies at. -/
theorem taskEnds_of_tasks {t : Tree} (hc : ∀ c ∈ t.children, h.TaskEnds schedule c) :
    h.TaskEnds schedule t := by
  rcases h.queryStyles_of_tasks schedule hc with ⟨f, hq, i, hi, hf⟩ | ⟨hbelow, entries, hq⟩
  · refine .inr ⟨f, by rw [hq]; rfl, i, ?_, hf⟩
    rw [Tree.ids_eq_cons]
    exact List.mem_cons_of_mem _ hi
  · rcases (h.style t.id).soft_or_fails with hsoft | ⟨f, hf⟩
    · exact .inl (Tree.forall_mem_ids.mpr ⟨hsoft, hbelow⟩)
    · refine .inr ⟨f, ?_, t.id, ?_, hf⟩
      · rw [hq, hf.joined_bind]
      · rw [Tree.ids_eq_cons]
        exact List.mem_cons_self

theorem taskEnds (t : Tree) : h.TaskEnds schedule t := by
  induction t with
  | leaf id node => exact h.taskEnds_of_tasks schedule (List.forall_mem_nil _)
  | branch id node children ih => exact h.taskEnds_of_tasks schedule ih

theorem nameTask_of_fails {v : VariableId} {f : Failure} (hv : (h.variableName v).Fails f) :
    h.nameTask v = .error f := by
  show ((h.variableName v).orElse none).joined >>= _ = _
  rw [hv.joined_orElse]
  rfl

/-- The names of the variables are all there, or the query of one fails. -/
theorem queryVariables_cases (t : Tree) :
    (∀ v ∈ boundVariables t, (h.variableName v).Soft) ∨
      ∃ f, h.queryVariables schedule t = .error f ∧
        ∃ v ∈ boundVariables t, (h.variableName v).Fails f := by
  rw [queryVariables]
  rcases join_arrivals_cases ((boundVariables t).map h.nameTask) schedule.name with
    ⟨-, -, hnone⟩ | ⟨f, hjoin, hf⟩
  · refine .inl fun v hv => (h.variableName v).soft_or_fails.resolve_right ?_
    rintro ⟨f, hf⟩
    exact hnone f (h.nameTask_of_fails hf ▸ List.mem_map_of_mem hv)
  · obtain ⟨v, hv, he⟩ := List.mem_map.mp hf
    refine .inr ⟨f, by simp only [hjoin, bind, Except.bind], v, hv, ?_⟩
    rcases (h.variableName v).soft_or_fails with hsoft | ⟨f', hf'⟩
    · rw [h.nameTask_of_soft hsoft] at he
      cases he
    · obtain rfl := Except.error.inj ((h.nameTask_of_fails hf').symm.trans he)
      exact hf'

/-- What a host that fails softly answers about a tree. -/
def answers (t : Tree) : Snapshot := ⟨.ofList (t.ids.map h.entry), .ofList (h.names t)⟩

theorem query_eq_answers {t : Tree} (hs : ∀ i ∈ t.ids, (h.style i).Soft)
    (hv : ∀ v ∈ boundVariables t, (h.variableName v).Soft) :
    h.query schedule t = .result (.ok (h.answers t)) := by
  rw [query, h.queryStyles_eq schedule hs, h.queryVariables_eq schedule hv]
  rfl

/-- The ways in which a query of a tree ends, and what it takes to end so. -/
inductive QueryEnds (t : Tree) : Ending Snapshot → Prop
  | styleBelow {f : Failure} {i : NodeId} (hi : i ∈ t.idsBelow) (hf : (h.style i).Fails f) :
      QueryEnds t (.result (.error f))
  | startUnavailable {message : String} (hs : ∀ i ∈ t.idsBelow, (h.style i).Soft)
      (he : h.style t.id = .error (.unavailable message)) :
      QueryEnds t (.result (.error (.host (.unavailable message))))
  | startDies (hs : ∀ i ∈ t.idsBelow, (h.style i).Soft) (he : h.style t.id = .dies) :
      QueryEnds t .dies
  | name {f : Failure} {v : VariableId} (hs : ∀ i ∈ t.ids, (h.style i).Soft)
      (hv : v ∈ boundVariables t) (hf : (h.variableName v).Fails f) :
      QueryEnds t (.result (.error f))
  | answered (hs : ∀ i ∈ t.ids, (h.style i).Soft)
      (hv : ∀ v ∈ boundVariables t, (h.variableName v).Soft) :
      QueryEnds t (.result (.ok (h.answers t)))

/-- The children come first, then the start, and the variables last. -/
theorem queryEnds (t : Tree) : h.QueryEnds t (h.query schedule t) := by
  rcases h.queryStyles_of_tasks schedule fun c _ => h.taskEnds schedule c with
    ⟨f, hq, i, hi, hf⟩ | ⟨hbelow, entries, hq⟩
  · rw [query, hq]
    exact .styleBelow hi hf
  · rcases (h.style t.id).soft_or_fails with hsoft | ⟨f, hf⟩
    · have hs := Tree.forall_mem_ids.mpr ⟨hsoft, hbelow⟩
      rcases h.queryVariables_cases schedule t with hv | ⟨f, hnames, v, hv, hf⟩
      · rw [h.query_eq_answers schedule hs hv]
        exact .answered hs hv
      · rw [query, h.queryStyles_eq schedule hs, hnames]
        exact .name hs hv hf
    · rw [query, hq]
      cases hc : h.style t.id with
      | value css => exact absurd (hc ▸ trivial) hf.not_soft
      | error e =>
        rw [hc] at hf
        cases hf
        exact .startUnavailable hbelow hc
      | dies => exact .startDies hbelow hc

theorem style_answers {t : Tree} (hn : t.ids.Nodup) {i : NodeId} (hi : i ∈ t.ids) :
    (h.answers t).style i = (h.style i).getD ∅ := by
  have hkeys : ((t.ids.map h.entry).map Prod.fst).Nodup := by
    rw [List.map_map]
    exact (List.map_id t.ids).symm ▸ hn
  rw [Snapshot.style, Snapshot.style?, answers, (OrderedMap.find?_ofList_iff hkeys).mpr
    (List.mem_map_of_mem hi)]
  rfl

theorem variableName?_answers {t : Tree} {v : VariableId} (hv : v ∈ boundVariables t) :
    (h.answers t).variableName? v = (h.variableName v).getD none := by
  refine Option.ext fun name => ?_
  rw [Snapshot.variableName?, answers, OrderedMap.find?_ofList_iff (h.nodup_keys_names t), mem_names,
    Answer.getD_none_eq_some_iff]
  exact and_iff_right hv

/-! ### Answers that are not asked for -/

variable {h} {h' : Host}

theorem queryStyles_congr {t : Tree} (hs : ∀ i ∈ t.ids, h'.style i = h.style i) :
    h'.queryStyles schedule t = h.queryStyles schedule t := by
  induction t with
  | leaf id node => rw [queryStyles, queryStyles, hs id (by simp)]
  | branch id node children ih =>
    have hall : h'.queryStylesAll schedule children = h.queryStylesAll schedule children := by
      rw [queryStylesAll_eq, queryStylesAll_eq]
      refine List.map_congr_left fun c hc => ?_
      rw [ih c hc fun i hi => hs i (Tree.ids_subset_branch id node hc hi)]
    rw [queryStyles, queryStyles, hall, hs id (by simp)]

theorem queryVariables_congr {t : Tree}
    (hv : ∀ v ∈ boundVariables t, h'.variableName v = h.variableName v) :
    h'.queryVariables schedule t = h.queryVariables schedule t := by
  have htasks : (boundVariables t).map h'.nameTask = (boundVariables t).map h.nameTask :=
    List.map_congr_left fun v hm => by rw [nameTask, nameTask, hv v hm]
  rw [queryVariables, queryVariables, htasks]

/-- Only the nodes of the tree and the variables bound there are asked for. -/
theorem query_congr {t : Tree} (hs : ∀ i ∈ t.ids, h'.style i = h.style i)
    (hv : ∀ v ∈ boundVariables t, h'.variableName v = h.variableName v) :
    h'.query schedule t = h.query schedule t := by
  rw [query, query, queryStyles_congr schedule hs, queryVariables_congr schedule hv]

end Host

end DesignComponents
