import DesignComponents.Proofs.Scene.Outline

/-! Scenes whose nodes are at other places. Two scenes may hold the same tree below their roots
though their nodes were added in another order, or others were added that cannot be reached. A
relabeling takes every place of the one tree to the place of the other. -/

namespace DesignComponents

/-- The same slot with its children at other places. -/
def Slot.relabel (f : NodeId → NodeId) (s : Slot) : Slot :=
  { s with children := s.children.map fun ids => ids.map f }

namespace Tree

mutual

/-- The same tree with its nodes at other places. -/
def relabel (f : NodeId → NodeId) : Tree → Tree
  | branch id node children => branch (f id) node (relabelAll f children)
  | leaf id node => leaf (f id) node

def relabelAll (f : NodeId → NodeId) : List Tree → List Tree
  | [] => []
  | t :: ts => relabel f t :: relabelAll f ts

end

variable (f : NodeId → NodeId)

theorem relabelAll_eq (ts : List Tree) : relabelAll f ts = ts.map (relabel f) := by
  induction ts with
  | nil => rfl
  | cons t ts ih => rw [relabelAll, ih, List.map_cons]

@[simp] theorem relabel_branch (id : NodeId) (node : Node) (children : List Tree) :
    (branch id node children).relabel f = branch (f id) node (children.map (relabel f)) := by
  rw [relabel, relabelAll_eq]

@[simp] theorem relabel_leaf (id : NodeId) (node : Node) :
    (leaf id node).relabel f = leaf (f id) node := rfl

@[simp] theorem id_relabel (t : Tree) : (t.relabel f).id = f t.id := by
  cases t <;> rfl

@[simp] theorem node_relabel (t : Tree) : (t.relabel f).node = t.node := by
  cases t <;> rfl

/-- A node of a tree, at its other place. -/
def move (n : NodeId × Node) : NodeId × Node := (f n.1, n.2)

theorem preorder_relabel (t : Tree) : (t.relabel f).preorder = t.preorder.map (move f) := by
  induction t with
  | leaf id node => rfl
  | branch id node children ih =>
    rw [relabel_branch, preorder_branch, preorder_branch, List.map_cons, List.map_flatMap,
      List.flatMap_map]
    exact congrArg ((f id, node) :: ·) (List.flatMap_congr ih)

theorem ids_relabel (t : Tree) : (t.relabel f).ids = t.ids.map f := by
  rw [ids, preorder_relabel, List.map_map, ids, List.map_map]
  rfl

theorem relabel_self (t : Tree) : t.relabel (fun i => i) = t := by
  induction t with
  | leaf id node => rfl
  | branch id node children ih => rw [relabel_branch, List.map_congr_left ih, List.map_id']

theorem relabel_congr {f g : NodeId → NodeId} {t : Tree} (h : ∀ i ∈ t.ids, f i = g i) :
    t.relabel f = t.relabel g := by
  induction t with
  | leaf id node => rw [relabel_leaf, relabel_leaf, h id (by simp)]
  | branch id node children ih =>
    rw [relabel_branch, relabel_branch, h id (by simp)]
    congr 1
    exact List.map_congr_left fun c hc =>
      ih c hc fun i hi => h i (ids_subset_branch id node hc hi)

/-- What a scene that shows the tree holds at its node. -/
def slot : Tree → Slot
  | branch _ node children => ⟨node, some (children.map Tree.id)⟩
  | leaf _ node => ⟨node, none⟩

end Tree

/-- Numbers that are different on a list come from a function that keeps all numbers apart. -/
theorem exists_injective_eqOn {l : List Nat} (f : Nat → Nat) (h : (l.map f).Nodup) :
    ∃ g : Nat → Nat, Function.Injective g ∧ ∀ i ∈ l, f i = g i := by
  have hle : ∀ i ∈ l, f i ≤ (l.map f).max?.getD 0 := fun i hi =>
    List.le_max?_getD_of_mem (List.mem_map_of_mem hi)
  refine ⟨fun i => if i ∈ l then f i else i + (l.map f).max?.getD 0 + 1, ?_, ?_⟩
  · intro i j he
    simp only at he
    split_ifs at he with hi hj hj
    · exact List.inj_on_of_nodup_map h hi hj he
    · have := hle i hi
      omega
    · have := hle j hj
      omega
    · omega
  · intro i hi
    simp only [if_pos hi]

namespace Scene

variable {f : NodeId → NodeId} {s s' : Scene}

theorem Shows.get?_id {t : Tree} (h : s.Shows t) : s.get? t.id = some t.slot := by
  cases h with
  | branch hs _ => exact hs
  | leaf hs => exact hs

/-- Only one tree shows what is below a node. -/
theorem Shows.unique {t t' : Tree} (h : s.Shows t) (h' : s.Shows t') (hid : t.id = t'.id) :
    t = t' := by
  induction t generalizing t' with
  | leaf id node =>
    have hslot := Option.some.inj (h.get?_id.symm.trans (hid ▸ h'.get?_id))
    cases t' with
    | leaf id' node' =>
      cases hid
      cases hslot
      rfl
    | branch id' node' children' => cases hslot
  | branch id node children ih =>
    have hslot := Option.some.inj (h.get?_id.symm.trans (hid ▸ h'.get?_id))
    cases t' with
    | leaf id' node' => cases hslot
    | branch id' node' children' =>
      cases hid
      rw [Tree.slot, Tree.slot, Slot.mk.injEq, Option.some.injEq] at hslot
      obtain ⟨rfl, hids⟩ := hslot
      congr 1
      have hl : children.length = children'.length := by simpa using congrArg List.length hids
      refine List.ext_getElem hl fun i hi hi' => ?_
      have hc := List.getElem_mem hi
      have hc' := List.getElem_mem hi'
      refine ih _ hc (h.of_mem hc) (h'.of_mem hc') ?_
      have hid := List.getElem_of_eq hids (by simpa using hi)
      simpa only [List.getElem_map] using hid

/-- A tree that is moved is shown by a scene whose nodes are moved. -/
theorem Shows.relabel {t : Tree} (h : s.Shows t)
    (hget : ∀ i ∈ t.ids, s'.get? (f i) = (s.get? i).map (Slot.relabel f)) :
    s'.Shows (t.relabel f) := by
  induction t with
  | leaf id node =>
    cases h with
    | leaf hs =>
      refine .leaf ?_
      rw [hget id (by simp), hs]
      rfl
  | branch id node children ih =>
    cases h with
    | branch hs hc =>
      rw [Tree.relabel_branch]
      refine .branch ?_ ?_
      · rw [hget id (by simp), hs]
        simp [Slot.relabel, Function.comp_def]
      · intro t ht
        obtain ⟨c, hm, rfl⟩ := List.mem_map.mp ht
        exact ih c hm (hc c hm) fun i hi => hget i (Tree.ids_subset_branch id node hm hi)

/-- Below its root, the second scene shows what the first one shows below its own, every node at
the place that a function gives for it. -/
structure Relabels (f : NodeId → NodeId) (s s' : Scene) : Prop where
  root_eq : s'.root = s.root.map f
  get?_eq : ∀ r i, s.root = some r → s.Reaches r i →
    s'.get? (f i) = (s.get? i).map (Slot.relabel f)

/-- The tree of a relabeled scene is the relabeled tree, and a relabeling keeps places apart. -/
theorem Relabels.rootTree? (h : Relabels f s s') (hf : s.Forest) (hf' : s'.Forest) {r : NodeId}
    (hr : s.root = some r) :
    ∃ (g : NodeId → NodeId) (t : Tree), Function.Injective g ∧ s.rootTree? = some t ∧
      s'.rootTree? = some (t.relabel g) ∧ s.Shows t ∧ t.id = r ∧ ∀ i ∈ t.ids, f i = g i := by
  obtain ⟨t, ht, hsh, rfl⟩ := hf.rootTree?_shows hr
  have hr' : s'.root = some (f t.id) := by rw [h.root_eq, hr, Option.map_some]
  obtain ⟨t', ht', hsh', hid'⟩ := hf'.rootTree?_shows hr'
  have hsh'' := hsh.relabel fun i hi => h.get?_eq _ i hr (hsh.mem_ids.mp hi)
  obtain rfl := hsh'.unique hsh'' (by rw [hid', Tree.id_relabel])
  -- two nodes at one place would make a place occur twice in the second tree
  obtain ⟨g, hg, heq⟩ := exists_injective_eqOn f (Tree.ids_relabel f t ▸ hsh'.nodup_ids hf')
  exact ⟨g, t, hg, ht, Tree.relabel_congr heq ▸ ht', hsh, rfl, heq⟩

end Scene

end DesignComponents
