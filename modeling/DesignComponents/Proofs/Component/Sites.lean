import DesignComponents.Payload.Generate
import DesignComponents.Proofs.Component.Declared
import Mathlib.Data.List.Flatten
import Mathlib.Data.List.Perm.Basic

/-! Where components start. The sites of a tree are the tree itself and every boundary below it;
each site has a place of its own, and the sites inside a site are sites of the whole tree. -/

namespace DesignComponents

@[simp] theorem Environment.isBoundary_eq (e : Environment) (n : Node) :
    e.isBoundary n = e.options.isBoundary n := rfl

namespace Tree

/-- The sites at a child and inside of it. -/
def childSites (o : Options) (scope : Scope) (t : Tree) : List Site :=
  if o.isBoundary t.node then ⟨scope, t⟩ :: t.nestedSites o scope else t.nestedSites o scope

theorem nestedSitesAll_eq (o : Options) (scope : Scope) (ts : List Tree) :
    nestedSitesAll o scope ts = ts.flatMap (childSites o scope) := by
  induction ts with
  | nil => rfl
  | cons t ts ih =>
    rw [nestedSitesAll, ih, List.flatMap_cons]
    rfl

@[simp] theorem nestedSites_branch (o : Options) (scope : Scope) (id : NodeId) (node : Node)
    (children : List Tree) :
    (branch id node children).nestedSites o scope =
      children.flatMap (childSites o (scope.enter node)) := by
  rw [nestedSites, nestedSitesAll_eq]

@[simp] theorem nestedSites_leaf (o : Options) (scope : Scope) (id : NodeId) (node : Node) :
    (leaf id node).nestedSites o scope = [] := rfl

theorem mem_childSites {o : Options} {scope : Scope} {t : Tree} {site : Site} :
    site ∈ t.childSites o scope ↔
      (o.isBoundary t.node = true ∧ site = ⟨scope, t⟩) ∨ site ∈ t.nestedSites o scope := by
  rw [childSites]
  split_ifs with h <;> simp [h]

theorem mem_nestedSites_branch {o : Options} {scope : Scope} {id : NodeId} {node : Node}
    {children : List Tree} {site : Site} :
    site ∈ (branch id node children).nestedSites o scope ↔
      ∃ c ∈ children, (o.isBoundary c.node = true ∧ site = ⟨scope.enter node, c⟩) ∨
        site ∈ c.nestedSites o (scope.enter node) := by
  rw [nestedSites_branch, List.mem_flatMap]
  exact exists_congr fun c => and_congr_right fun _ => mem_childSites

theorem mem_sites {o : Options} {t : Tree} {site : Site} :
    site ∈ t.sites o ↔ site = ⟨.empty, t⟩ ∨ site ∈ t.nestedSites o .empty := by
  rw [sites, List.mem_cons]

/-- A property of the subtrees of a tree holds at its sites. -/
theorem nestedSites_induct {P : Tree → Prop}
    (hP : ∀ id node children, P (branch id node children) → ∀ c ∈ children, P c)
    {o : Options} {scope : Scope} {t : Tree} {site : Site} (ht : P t)
    (hs : site ∈ t.nestedSites o scope) : P site.tree := by
  induction t generalizing scope with
  | leaf id node => simp at hs
  | branch id node children ih =>
    obtain ⟨c, hc, ⟨-, rfl⟩ | hs⟩ := mem_nestedSites_branch.mp hs
    · exact hP id node children ht c hc
    · exact ih c hc (hP id node children ht c hc) hs

theorem isBoundary_of_mem_nestedSites {o : Options} {scope : Scope} {t : Tree} {site : Site}
    (hs : site ∈ t.nestedSites o scope) : o.isBoundary site.tree.node = true := by
  induction t generalizing scope with
  | leaf id node => simp at hs
  | branch id node children ih =>
    obtain ⟨c, hc, ⟨hb, rfl⟩ | hs⟩ := mem_nestedSites_branch.mp hs
    · exact hb
    · exact ih c hc hs

theorem shows_of_mem_sites {s : Scene} {o : Options} {t : Tree} {site : Site} (ht : s.Shows t)
    (hs : site ∈ t.sites o) : s.Shows site.tree := by
  rcases mem_sites.mp hs with rfl | hs
  · exact ht
  · exact nestedSites_induct (fun _ _ _ h c hc => h.of_mem hc) ht hs

theorem preorder_subset_of_mem_sites {o : Options} {t : Tree} {site : Site} (hs : site ∈ t.sites o) :
    site.tree.preorder ⊆ t.preorder := by
  rcases mem_sites.mp hs with rfl | hs
  · exact List.Subset.refl _
  · refine nestedSites_induct (P := fun u => u.preorder ⊆ t.preorder) ?_ (List.Subset.refl _) hs
    intro id node children hsub c hc
    exact List.Subset.trans (preorder_subset_branch id node hc) hsub

/-- Sites inside a site lie inside whatever the site lies in. -/
theorem nestedSites_trans {o : Options} {scope : Scope} {t : Tree} {site inner : Site}
    (hs : site ∈ t.nestedSites o scope) (hi : inner ∈ site.tree.nestedSites o site.scope) :
    inner ∈ t.nestedSites o scope := by
  induction t generalizing scope with
  | leaf id node => simp at hs
  | branch id node children ih =>
    rw [mem_nestedSites_branch]
    obtain ⟨c, hc, ⟨-, rfl⟩ | hs⟩ := mem_nestedSites_branch.mp hs
    · exact ⟨c, hc, .inr hi⟩
    · exact ⟨c, hc, .inr (ih c hc hs)⟩

theorem mem_sites_of_nested {o : Options} {t : Tree} {site inner : Site} (hs : site ∈ t.sites o)
    (hi : inner ∈ site.tree.nestedSites o site.scope) : inner ∈ t.sites o := by
  rcases mem_sites.mp hs with rfl | hs
  · exact mem_sites.mpr (.inr hi)
  · exact mem_sites.mpr (.inr (nestedSites_trans hs hi))

/-- What a nested component draws on is drawn on around it, too. -/
theorem drafts_subset_of_mem_nestedSites {s : Snapshot} {o : Options} {scope : Scope} {t : Tree}
    {site : Site} (hs : site ∈ t.nestedSites o scope) :
    site.tree.drafts s site.scope ⊆ t.drafts s scope := by
  induction t generalizing scope with
  | leaf id node => simp at hs
  | branch id node children ih =>
    intro d hd
    rw [drafts_branch, List.mem_append, List.mem_flatMap]
    obtain ⟨c, hc, ⟨-, rfl⟩ | hs⟩ := mem_nestedSites_branch.mp hs
    · exact .inr ⟨c, hc, hd⟩
    · exact .inr ⟨c, hc, ih c hc hs hd⟩

/-! ### Starts of components -/

/-- The starts of components at a child and inside of it. -/
def childStarts (o : Options) (t : Tree) : List (NodeId × Node) :=
  t.nestedStarts o ++ if o.isBoundary t.node then [(t.id, t.node)] else []

theorem nestedStartsAll_eq (o : Options) (ts : List Tree) :
    nestedStartsAll o ts = ts.flatMap (childStarts o) := by
  induction ts with
  | nil => rfl
  | cons t ts ih =>
    rw [nestedStartsAll, ih, List.flatMap_cons]
    rfl

@[simp] theorem nestedStarts_branch (o : Options) (id : NodeId) (node : Node)
    (children : List Tree) :
    (branch id node children).nestedStarts o = children.flatMap (childStarts o) := by
  rw [nestedStarts, nestedStartsAll_eq]

@[simp] theorem nestedStarts_leaf (o : Options) (id : NodeId) (node : Node) :
    (leaf id node).nestedStarts o = [] := rfl

/-- The starts of nested components are those of the nested sites. -/
theorem nestedStarts_perm (o : Options) (scope : Scope) (t : Tree) :
    (t.nestedStarts o).Perm
      ((t.nestedSites o scope).map fun site => (site.tree.id, site.tree.node)) := by
  induction t generalizing scope with
  | leaf id node => rfl
  | branch id node children ih =>
    rw [nestedStarts_branch, nestedSites_branch, List.map_flatMap]
    refine List.Perm.flatMap_left children fun c hc => ?_
    rw [childStarts, childSites]
    split_ifs
    · exact List.perm_append_comm.trans ((ih c hc _).cons _)
    · rw [List.append_nil]
      exact ih c hc _

theorem starts_perm (o : Options) (t : Tree) :
    (t.starts o).Perm ((t.sites o).map fun site => (site.tree.id, site.tree.node)) :=
  List.perm_append_comm.trans ((nestedStarts_perm o .empty t).cons _)

/-! ### Places of sites -/

theorem cons_ids_nestedSites_sublist (o : Options) (scope : Scope) (t : Tree) :
    (t.id :: (t.nestedSites o scope).map (·.tree.id)).Sublist t.ids := by
  induction t generalizing scope with
  | leaf id node => simp [Tree.id]
  | branch id node children ih =>
    rw [ids_branch, nestedSites_branch, List.map_flatMap]
    refine List.Sublist.cons_cons id (List.Sublist.flatMap_right children fun c hc => ?_)
    have h := ih c hc (scope.enter node)
    rw [childSites]
    split_ifs
    · exact h
    · exact (List.sublist_cons_self _ _).trans h

theorem ids_sites_sublist (o : Options) (t : Tree) :
    ((t.sites o).map (·.tree.id)).Sublist t.ids :=
  cons_ids_nestedSites_sublist o .empty t

theorem nodup_ids_sites {o : Options} {t : Tree} (h : t.ids.Nodup) :
    ((t.sites o).map (·.tree.id)).Nodup :=
  h.sublist (ids_sites_sublist o t)

theorem nodup_origins_components {o : Options} {s : Snapshot} {t : Tree} (h : t.ids.Nodup) :
    ((t.components o s).map Descriptor.origin).Nodup := by
  rw [components, List.map_map]
  exact nodup_ids_sites h

theorem site_eq_of_id_eq {o : Options} {t : Tree} (h : t.ids.Nodup) {site site' : Site}
    (hs : site ∈ t.sites o) (hs' : site' ∈ t.sites o) (he : site.tree.id = site'.tree.id) :
    site = site' :=
  List.inj_on_of_nodup_map (nodup_ids_sites h) hs hs' he

end Tree

namespace Scene

theorem components_of_rootTree? {scene : Scene} {t : Tree} (h : scene.rootTree? = some t)
    (s : Snapshot) (o : Options) : scene.components s o = .ok (t.components o s) := by
  rw [components, rootTree, h]
  rfl

end Scene

end DesignComponents
