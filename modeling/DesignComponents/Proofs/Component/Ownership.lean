import DesignComponents.Proofs.Component.Sites
import Mathlib.Data.List.Perm.Basic

/-! Which component owns a node. The nodes owned at the sites of a tree are together the nodes
of the tree, and each is owned by the innermost component around it. The nodes with rules in the
sheet of a component are those that it owns or all below its start. -/

namespace DesignComponents

namespace Tree

/-- What a child adds to the component around it. -/
def childOwned (o : Options) (t : Tree) : List (NodeId × Node) :=
  if o.isBoundary t.node then [] else t.owned o

theorem ownedAll_eq (o : Options) (ts : List Tree) : ownedAll o ts = ts.flatMap (childOwned o) := by
  induction ts with
  | nil => rfl
  | cons t ts ih =>
    rw [ownedAll, ih, List.flatMap_cons]
    rfl

@[simp] theorem owned_branch (o : Options) (id : NodeId) (node : Node) (children : List Tree) :
    (branch id node children).owned o = (id, node) :: children.flatMap (childOwned o) := by
  rw [owned, ownedAll_eq]

@[simp] theorem owned_leaf (o : Options) (id : NodeId) (node : Node) :
    (leaf id node).owned o = [(id, node)] := rfl

theorem mem_childOwned {o : Options} {t : Tree} {n : NodeId × Node} :
    n ∈ t.childOwned o ↔ o.isBoundary t.node = false ∧ n ∈ t.owned o := by
  rw [childOwned]
  split_ifs with h <;> simp [h]

/-! ### Every node is owned once -/

theorem owned_append_nested_perm (o : Options) (scope : Scope) (t : Tree) :
    (t.owned o ++ (t.nestedSites o scope).flatMap fun site => site.tree.owned o).Perm
      t.preorder := by
  induction t generalizing scope with
  | leaf id node => simp
  | branch id node children ih =>
    rw [owned_branch, nestedSites_branch, preorder_branch, List.flatMap_assoc, List.cons_append]
    refine ((List.flatMap_append_perm children _ _).trans ?_).cons (id, node)
    refine List.Perm.flatMap_left children fun c hc => ?_
    -- a boundary moves from the component around it to its own site
    have h := ih c hc (scope.enter node)
    rw [childOwned, childSites]
    split_ifs
    · exact h
    · exact h

theorem owned_sites_perm (o : Options) (t : Tree) :
    ((t.sites o).flatMap fun site => site.tree.owned o).Perm t.preorder :=
  owned_append_nested_perm o .empty t

theorem owned_subset_preorder (o : Options) (t : Tree) : t.owned o ⊆ t.preorder := fun _ hn =>
  (owned_append_nested_perm o .empty t).subset (List.mem_append_left _ hn)

/-! ### Nodes with rules -/

theorem styled_isolated {o : Options} (h : o.stylePolicy = .isolated) (t : Tree) :
    t.styled o = t.owned o := by
  rw [styled, h]

theorem styled_flat {o : Options} (h : o.stylePolicy = .flat) (t : Tree) :
    t.styled o = t.preorder := by
  rw [styled, h]

theorem styled_subset_preorder (o : Options) (t : Tree) : t.styled o ⊆ t.preorder := by
  cases hp : o.stylePolicy with
  | flat => rw [styled_flat hp]; exact List.Subset.refl _
  | isolated => rw [styled_isolated hp]; exact owned_subset_preorder o t

theorem owned_subset_styled (o : Options) (t : Tree) : t.owned o ⊆ t.styled o := by
  cases hp : o.stylePolicy with
  | flat => rw [styled_flat hp]; exact owned_subset_preorder o t
  | isolated => rw [styled_isolated hp]; exact List.Subset.refl _

end Tree

namespace Scene

variable {s : Scene} {o : Options}

/-- A node starts a component: it is the root or a boundary below. -/
def Starts (s : Scene) (o : Options) (r c : NodeId) : Prop :=
  s.Reaches r c ∧ (c = r ∨ ∃ node, s.node? c = some node ∧ o.isBoundary node = true)

/-- The component that starts at a node is the innermost one around another node. -/
def Innermost (s : Scene) (o : Options) (r c i : NodeId) : Prop :=
  s.Starts o r c ∧ s.Reaches c i ∧ ∀ c', s.Starts o r c' → s.Reaches c' i → s.Reaches c' c

theorem Innermost.unique (hf : s.Forest) {r c c' i : NodeId} (h : s.Innermost o r c i)
    (h' : s.Innermost o r c' i) : c = c' :=
  hf.reaches_antisymm (h'.2.2 c h.1 h.2.1) (h.2.2 c' h'.1 h'.2.1)

theorem Shows.starts_of_mem_sites {t : Tree} (h : s.Shows t) {site : Site}
    (hs : site ∈ t.sites o) : s.Starts o t.id site.tree.id := by
  have hid : site.tree.id ∈ t.ids :=
    (Tree.ids_sites_sublist o t).subset (List.mem_map.mpr ⟨site, hs, rfl⟩)
  refine ⟨h.mem_ids.mp hid, ?_⟩
  have hnode := (Tree.shows_of_mem_sites h hs).node?_eq
  rcases Tree.mem_sites.mp hs with rfl | hs
  · exact .inl rfl
  · exact .inr ⟨_, hnode, Tree.isBoundary_of_mem_nestedSites hs⟩

/-- No boundary stands between the start of a component and a node that it owns. -/
theorem Shows.reaches_of_mem_owned {t : Tree} (h : s.Shows t) (hf : s.Forest)
    {n : NodeId × Node} (hn : n ∈ t.owned o) {c : NodeId} {node : Node}
    (hnode : s.node? c = some node) (hb : o.isBoundary node = true) (htc : s.Reaches t.id c)
    (hcn : s.Reaches c n.1) : c = t.id := by
  induction t with
  | leaf id node =>
    rw [Tree.owned_leaf, List.mem_singleton] at hn
    subst hn
    exact hf.reaches_antisymm hcn htc
  | branch id node' children ih =>
    rw [Tree.owned_branch, List.mem_cons, List.mem_flatMap] at hn
    rcases hn with rfl | ⟨k, hk, hn⟩
    · exact hf.reaches_antisymm hcn htc
    · obtain ⟨hbk, hn⟩ := Tree.mem_childOwned.mp hn
      rcases reaches_iff.mp htc with he | ⟨k', hk', hkc⟩
      · exact he
      · -- both children lie above the node, so that the boundary is in the owning child
        have hkn := ((h.of_mem hk).mem_preorder.mp (Tree.owned_subset_preorder o k hn)).1
        obtain rfl := hf.child_unique (h.mem_childrenOf hk) hk' hkn (hkc.trans hcn)
        obtain rfl := ih k hk (h.of_mem hk) hn hkc
        obtain rfl := Option.some.inj (hnode.symm.trans (h.of_mem hk).node?_eq)
        exact absurd hb (by simp [hbk])

theorem Shows.innermost_of_mem_owned {t : Tree} (h : s.Shows t) (hf : s.Forest) {site : Site}
    (hs : site ∈ t.sites o) {n : NodeId × Node} (hn : n ∈ site.tree.owned o) :
    s.Innermost o t.id site.tree.id n.1 := by
  have hsite := Tree.shows_of_mem_sites h hs
  have hstart := h.starts_of_mem_sites hs
  have hreach := (hsite.mem_preorder.mp (Tree.owned_subset_preorder o _ hn)).1
  refine ⟨hstart, hreach, fun c hc hcn => ?_⟩
  rcases hf.reaches_or_reaches hcn hreach with hle | hle
  · exact hle
  · rcases hc.2 with rfl | ⟨node, hnode, hb⟩
    · exact hstart.1
    · rw [hsite.reaches_of_mem_owned hf hn hnode hb hle hcn]
      exact Reaches.refl _

/-- A component owns exactly the nodes of which it is the innermost one. -/
theorem Shows.mem_owned {t : Tree} (h : s.Shows t) (hf : s.Forest) {site : Site}
    (hs : site ∈ t.sites o) {n : NodeId × Node} :
    n ∈ site.tree.owned o ↔
      s.Innermost o t.id site.tree.id n.1 ∧ s.node? n.1 = some n.2 := by
  have hsite := Tree.shows_of_mem_sites h hs
  constructor
  · intro hn
    exact ⟨h.innermost_of_mem_owned hf hs hn,
      hsite.node?_of_mem (Tree.owned_subset_preorder o _ hn)⟩
  · rintro ⟨hin, hnode⟩
    have hmem : n ∈ t.preorder := h.mem_preorder.mpr ⟨hin.1.1.trans hin.2.1, hnode⟩
    obtain ⟨site', hs', hn⟩ := List.mem_flatMap.mp ((Tree.owned_sites_perm o t).symm.subset hmem)
    have he := hin.unique hf (h.innermost_of_mem_owned hf hs' hn)
    rwa [Tree.site_eq_of_id_eq (h.nodup_ids hf) hs hs' he]

end Scene

end DesignComponents
