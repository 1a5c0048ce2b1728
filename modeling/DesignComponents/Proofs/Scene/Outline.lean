import DesignComponents.Proofs.Scene.Descent
import Mathlib.Data.List.Nodup
import Mathlib.Data.List.Perm.Subperm

/-! Trees and the scenes that they show. The tree below a node of a forest has every node that
can be reached from there once, in the order of the walk. -/

namespace DesignComponents

namespace Tree

/-- Induction over a tree, with the statement for every child. -/
@[elab_as_elim, induction_eliminator]
theorem induct {motive : Tree → Prop}
    (branch : ∀ id node children, (∀ t ∈ children, motive t) → motive (.branch id node children))
    (leaf : ∀ id node, motive (.leaf id node)) : ∀ t, motive t
  | .branch id node children => branch id node children fun t _ => induct branch leaf t
  | .leaf id node => leaf id node

theorem preorderAll_eq (ts : List Tree) : preorderAll ts = ts.flatMap preorder := by
  induction ts with
  | nil => rfl
  | cons t ts ih => rw [preorderAll, ih, List.flatMap_cons]

@[simp] theorem preorder_branch (id : NodeId) (node : Node) (children : List Tree) :
    (branch id node children).preorder = (id, node) :: children.flatMap preorder := by
  rw [preorder, preorderAll_eq]

@[simp] theorem preorder_leaf (id : NodeId) (node : Node) :
    (leaf id node).preorder = [(id, node)] := rfl

/-- The places of a tree in depth-first order. -/
def ids (t : Tree) : List NodeId := t.preorder.map Prod.fst

@[simp] theorem ids_branch (id : NodeId) (node : Node) (children : List Tree) :
    (branch id node children).ids = id :: children.flatMap ids := by
  simp only [ids, preorder_branch, List.map_cons, List.map_flatMap]
  rfl

@[simp] theorem ids_leaf (id : NodeId) (node : Node) : (leaf id node).ids = [id] := rfl

theorem preorder_subset_branch (id : NodeId) (node : Node) {children : List Tree} {t : Tree}
    (ht : t ∈ children) : t.preorder ⊆ (branch id node children).preorder := by
  intro n hn
  rw [preorder_branch]
  exact List.mem_cons_of_mem _ (List.mem_flatMap.mpr ⟨t, ht, hn⟩)

theorem ids_subset_branch (id : NodeId) (node : Node) {children : List Tree} {t : Tree}
    (ht : t ∈ children) : t.ids ⊆ (branch id node children).ids :=
  List.map_subset _ (preorder_subset_branch id node ht)

end Tree

namespace Scene

/-- The node at a place. -/
def node? (s : Scene) (i : NodeId) : Option Node := (s.get? i).map Slot.node

/-- The tree shows all that is below its node in the scene. -/
inductive Shows (s : Scene) : Tree → Prop
  | branch {id : NodeId} {node : Node} {children : List Tree}
      (hs : s.get? id = some ⟨node, some (children.map Tree.id)⟩)
      (hc : ∀ t ∈ children, Shows s t) : Shows s (.branch id node children)
  | leaf {id : NodeId} {node : Node} (hs : s.get? id = some ⟨node, none⟩) : Shows s (.leaf id node)

namespace Shows

variable {s : Scene}

theorem node?_eq {t : Tree} (h : s.Shows t) : s.node? t.id = some t.node := by
  cases h <;> rename_i hs <;> simp [node?, Tree.id, Tree.node, *]

theorem childrenOf_branch {id : NodeId} {node : Node} {children : List Tree}
    (h : s.Shows (.branch id node children)) : s.childrenOf id = children.map Tree.id := by
  cases h with
  | branch hs _ => simp [childrenOf, hs]

theorem childrenOf_leaf {id : NodeId} {node : Node} (h : s.Shows (.leaf id node)) :
    s.childrenOf id = [] := by
  cases h with
  | leaf hs => simp [childrenOf, hs]

theorem of_mem {id : NodeId} {node : Node} {children : List Tree}
    (h : s.Shows (.branch id node children)) {t : Tree} (ht : t ∈ children) : s.Shows t := by
  cases h with
  | branch _ hc => exact hc t ht

theorem mem_childrenOf {id : NodeId} {node : Node} {children : List Tree}
    (h : s.Shows (.branch id node children)) {t : Tree} (ht : t ∈ children) :
    t.id ∈ s.childrenOf id := by
  rw [h.childrenOf_branch]
  exact List.mem_map_of_mem ht

/-- A tree has exactly the nodes that can be reached. -/
theorem mem_ids {t : Tree} (h : s.Shows t) {i : NodeId} : i ∈ t.ids ↔ s.Reaches t.id i := by
  induction t with
  | leaf id node =>
    rw [reaches_iff, Tree.id, h.childrenOf_leaf]
    simp
  | branch id node children ih =>
    rw [reaches_iff, Tree.id, h.childrenOf_branch, Tree.ids_branch, List.mem_cons,
      List.mem_flatMap]
    simp only [List.mem_map, exists_exists_and_eq_and]
    exact or_congr_right (exists_congr fun c => and_congr_right fun hc => ih c hc (h.of_mem hc))

theorem node?_of_mem {t : Tree} (h : s.Shows t) {n : NodeId × Node} (hn : n ∈ t.preorder) :
    s.node? n.1 = some n.2 := by
  induction t with
  | leaf id node =>
    rw [Tree.preorder_leaf, List.mem_singleton] at hn
    subst hn
    exact h.node?_eq
  | branch id node children ih =>
    rw [Tree.preorder_branch, List.mem_cons, List.mem_flatMap] at hn
    rcases hn with rfl | ⟨c, hc, hn⟩
    · exact h.node?_eq
    · exact ih c hc (h.of_mem hc) hn

/-- A tree has every node that can be reached, with its place. -/
theorem mem_preorder {t : Tree} (h : s.Shows t) {n : NodeId × Node} :
    n ∈ t.preorder ↔ s.Reaches t.id n.1 ∧ s.node? n.1 = some n.2 := by
  constructor
  · intro hn
    exact ⟨h.mem_ids.mp (List.mem_map_of_mem hn), h.node?_of_mem hn⟩
  · rintro ⟨hr, hn⟩
    obtain ⟨m, hm, he⟩ := List.mem_map.mp (h.mem_ids.mpr hr)
    have hnode : some n.2 = some m.2 := by rw [← hn, ← he, h.node?_of_mem hm]
    obtain rfl : n = m := Prod.ext he.symm (Option.some.inj hnode)
    exact hm

/-- No place occurs twice in a tree. -/
theorem nodup_ids {t : Tree} (h : s.Shows t) (hf : s.Forest) : t.ids.Nodup := by
  induction t with
  | leaf id node => simp
  | branch id node children ih =>
    rw [Tree.ids_branch, List.nodup_cons]
    constructor
    · intro hm
      obtain ⟨c, hc, hi⟩ := List.mem_flatMap.mp hm
      have hle := hf.le_of_reaches ((h.of_mem hc).mem_ids.mp hi)
      have hlt := hf.parent_lt (h.mem_childrenOf hc)
      exact absurd hlt (Nat.not_lt.mpr hle)
    · rw [List.nodup_flatMap]
      refine ⟨fun c hc => ih c hc (h.of_mem hc), ?_⟩
      have hlt : (children.map Tree.id).Pairwise (· < ·) :=
        h.childrenOf_branch ▸ hf.increasing id
      refine (List.pairwise_map.mp hlt).imp_of_mem ?_
      intro c d hc hd hcd i hi hj
      have he := hf.child_unique (h.mem_childrenOf hc) (h.mem_childrenOf hd)
        ((h.of_mem hc).mem_ids.mp hi) ((h.of_mem hd).mem_ids.mp hj)
      exact absurd he (Nat.ne_of_lt hcd)

theorem length_ids_le {t : Tree} (h : s.Shows t) (hf : s.Forest) : t.ids.length ≤ s.size := by
  have hlt : t.id < s.size := by
    have hn := h.node?_eq
    obtain ⟨slot, hs, -⟩ := Option.map_eq_some_iff.mp hn
    exact get?_lt hs
  have hsub : t.ids ⊆ List.range s.size := fun i hi =>
    List.mem_range.mpr (hf.reaches_lt hlt (h.mem_ids.mp hi))
  simpa using ((h.nodup_ids hf).subperm hsub).length_le

end Shows

/-! ### The walk -/

theorem walk_add {s : Scene} {t : Tree} (h : s.Shows t) (limit : Nat) (stack : List NodeId) :
    s.walk (t.ids.length + limit) (t.id :: stack) = t.ids ++ s.walk limit stack := by
  induction t generalizing limit stack with
  | leaf id node =>
    rw [Tree.ids_leaf, List.length_singleton, Nat.add_comm, Tree.id, walk, h.childrenOf_leaf]
    rfl
  | branch id node children ih =>
    rw [Tree.ids_branch, List.length_cons, Nat.add_right_comm, Tree.id, walk, h.childrenOf_branch,
      List.cons_append]
    congr 1
    -- the children stand on the stack; each is walked before the ones behind it
    have hall : ∀ ts : List Tree, ts ⊆ children → ∀ limit,
        s.walk ((ts.flatMap Tree.ids).length + limit) (ts.map Tree.id ++ stack) =
          ts.flatMap Tree.ids ++ s.walk limit stack := by
      intro ts
      induction ts with
      | nil => intro _ limit; simp
      | cons c ts iht =>
        intro hts limit
        rw [List.cons_subset] at hts
        rw [List.flatMap_cons, List.length_append, Nat.add_assoc, List.map_cons, List.cons_append,
          ih c hts.1 (h.of_mem hts.1), iht hts.2, List.append_assoc]
    exact hall children (List.Subset.refl _) limit

theorem walk_nil (s : Scene) (limit : Nat) : s.walk limit [] = [] := by
  cases limit <;> rfl

/-- The walk from a node lists its tree, if it may take enough steps. -/
theorem Shows.descendants_eq {s : Scene} {t : Tree} (h : s.Shows t) (hf : s.Forest) {limit : Nat}
    (hl : s.size ≤ limit) : s.descendants limit t.id = t.ids := by
  obtain ⟨k, rfl⟩ := Nat.exists_eq_add_of_le (Nat.le_trans (h.length_ids_le hf) hl)
  rw [descendants, walk_add h, walk_nil, List.append_nil]

/-! ### The tree below a place -/

/-- Depth enough for the nodes behind a place unfolds its whole tree. -/
theorem unfold_shows {s : Scene} (hf : s.Forest) : ∀ (depth i : Nat), i < s.size →
    s.size ≤ i + depth → ∃ t, s.unfold depth i = some t ∧ s.Shows t ∧ t.id = i
  | 0, i, hi, hd => by omega
  | depth + 1, i, hi, hd => by
    obtain ⟨⟨node, children⟩, hs⟩ := exists_get? hi
    cases children with
    | none => exact ⟨.leaf i node, by simp [unfold, hs], .leaf hs, rfl⟩
    | some ids =>
      have hc : ∀ c ∈ ids, ∃ t, s.unfold depth c = some t ∧ s.Shows t ∧ t.id = c := by
        intro c hc
        have hm : c ∈ s.childrenOf i := by rw [childrenOf_of_get? hs]; exact hc
        have hlt := hf.parent_lt hm
        exact unfold_shows hf depth c (hf.child_lt hm) (by omega)
      refine ⟨.branch i node (ids.filterMap (s.unfold depth)), by simp [unfold, hs], ?_, rfl⟩
      have hids : (ids.filterMap (s.unfold depth)).map Tree.id = ids := by
        clear hs
        induction ids with
        | nil => rfl
        | cons c ids ih =>
          obtain ⟨t, ht, -, hid⟩ := hc c List.mem_cons_self
          rw [List.filterMap_cons_some ht, List.map_cons, hid,
            ih fun c h => hc c (List.mem_cons_of_mem _ h)]
      refine .branch (by rw [hids]; exact hs) ?_
      intro t ht
      obtain ⟨c, hm, hu⟩ := List.mem_filterMap.mp ht
      obtain ⟨t', ht', hsh, -⟩ := hc c hm
      rw [hu] at ht'
      exact Option.some.inj ht' ▸ hsh

theorem Forest.tree?_shows {s : Scene} (hf : s.Forest) {i : Nat} (hi : i < s.size) :
    ∃ t, s.tree? i = some t ∧ s.Shows t ∧ t.id = i :=
  unfold_shows hf s.size i hi (by omega)

theorem Forest.rootTree?_shows {s : Scene} (hf : s.Forest) {r : NodeId} (hr : s.root = some r) :
    ∃ t, s.rootTree? = some t ∧ s.Shows t ∧ t.id = r := by
  simp only [rootTree?, hr, Option.bind_some]
  exact hf.tree?_shows (hf.root_lt hr)

end Scene

end DesignComponents
