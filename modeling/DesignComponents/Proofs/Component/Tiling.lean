import DesignComponents.Proofs.Collections
import DesignComponents.Proofs.Component.Ownership

/-! Events and rules across components. No exported trigger and no node with a rule is lost when
a scene is divided, and none occurs twice: every event is raised by the innermost component
around its node, and a rule stands in one sheet or in the sheets of all components around it. -/

namespace DesignComponents

theorem Node.mem_exportedTriggers {n : Node} {k : Trigger} :
    k ∈ n.exportedTriggers ↔ (∃ a ∈ n.reactions, a.kind = k) ∧ k.isExported = true := by
  rw [exportedTriggers, List.mem_eraseDups, List.mem_filter, List.mem_map]

/-- What tells the events of a scene apart. -/
def Event.source (e : Event) : NodeId × Trigger := (e.origin, e.trigger)

namespace Tree

/-- The exported triggers of some nodes, with the places of the nodes. -/
def sources (nodes : List (NodeId × Node)) : List (NodeId × Trigger) :=
  nodes.flatMap fun n => n.2.exportedTriggers.map fun k => (n.1, k)

theorem map_source_events (e : Environment) (t : Tree) :
    (t.events e).map Event.source = sources (t.owned e.options) := by
  rw [events, signals, List.map_map, List.map_flatMap]
  refine congrArg (List.flatMap · _) (funext fun n => ?_)
  rw [List.map_map]
  rfl

theorem mem_sources {nodes : List (NodeId × Node)} {i : NodeId} {k : Trigger} :
    (i, k) ∈ sources nodes ↔ ∃ n, (i, n) ∈ nodes ∧ k ∈ n.exportedTriggers := by
  simp [sources, List.mem_flatMap]

theorem nodup_sources {nodes : List (NodeId × Node)} (h : (nodes.map Prod.fst).Nodup) :
    (sources nodes).Nodup := by
  rw [sources, List.nodup_flatMap]
  constructor
  · intro n _
    exact (nodup_eraseDups _).map fun k k' he => congrArg Prod.snd he
  · refine (List.pairwise_map.mp h).imp fun {n m} hne p hp hq => ?_
    obtain ⟨k, -, rfl⟩ := List.mem_map.mp hp
    obtain ⟨k', -, he⟩ := List.mem_map.mp hq
    exact hne (congrArg Prod.fst he).symm

theorem map_source_components (o : Options) (s : Snapshot) (t : Tree) :
    ((t.components o s).flatMap Descriptor.events).map Event.source =
      sources ((t.sites o).flatMap fun site => site.tree.owned o) := by
  rw [components, List.flatMap_map, List.map_flatMap, sources, List.flatMap_assoc]
  exact congrArg (List.flatMap · _) (funext fun site => map_source_events _ site.tree)

theorem map_origin_styles (e : Environment) (site : Site) :
    (site.describe e).styles.map StyleRule.origin = (site.tree.styled e.options).map Prod.fst := by
  rw [Site.describe, styles, List.map_map]
  rfl

theorem map_origin_components {o : Options} (h : o.stylePolicy = .isolated) (s : Snapshot)
    (t : Tree) :
    (((t.components o s).flatMap Descriptor.styles).map StyleRule.origin).Perm t.ids := by
  have hsite : ∀ site : Site,
      (site.describe (t.environment o s)).styles.map StyleRule.origin =
        (site.tree.owned o).map Prod.fst := by
    intro site
    rw [map_origin_styles]
    exact congrArg _ (styled_isolated h site.tree)
  rw [components, List.flatMap_map, List.map_flatMap]
  simp only [hsite]
  rw [← List.map_flatMap]
  exact (owned_sites_perm o t).map Prod.fst

end Tree

namespace Scene

/-- A node has a reaction to an exported trigger. -/
def Exports (s : Scene) (i : NodeId) (k : Trigger) : Prop :=
  ∃ node, s.node? i = some node ∧ (∃ a ∈ node.reactions, a.kind = k) ∧ k.isExported = true

/-- The sources of all nodes with a property are their exported triggers. -/
theorem mem_sources_iff {s : Scene} {nodes : List (NodeId × Node)} {P : NodeId → Prop}
    (h : ∀ {n}, n ∈ nodes ↔ P n.1 ∧ s.node? n.1 = some n.2) {i : NodeId} {k : Trigger} :
    (i, k) ∈ Tree.sources nodes ↔ P i ∧ s.Exports i k := by
  rw [Tree.mem_sources]
  constructor
  · rintro ⟨node, hn, hk⟩
    obtain ⟨hp, hnode⟩ := h.mp hn
    exact ⟨hp, node, hnode, Node.mem_exportedTriggers.mp hk⟩
  · rintro ⟨hp, node, hnode, hk⟩
    exact ⟨node, h.mpr ⟨hp, hnode⟩, Node.mem_exportedTriggers.mpr hk⟩

/-- Over all components of a scene, every exported trigger of a node has one event, which the
innermost component around the node raises. With isolated sheets every node has one rule;
with flat sheets it has one in each component at or above the node. -/
theorem components_tile {scene : Scene} (hb : scene.Built) {r : NodeId} (hr : scene.root = some r)
    (s : Snapshot) (o : Options) :
    ∃ ds, scene.components s o = .ok ds ∧
      ((ds.flatMap Descriptor.events).map Event.source).Nodup ∧
      (∀ i k, (∃ e ∈ ds.flatMap Descriptor.events, e.source = (i, k)) ↔
        scene.Reaches r i ∧ scene.Exports i k) ∧
      (∀ d ∈ ds, ∀ i k, (∃ e ∈ d.events, e.source = (i, k)) ↔
        scene.Innermost o r d.origin i ∧ scene.Exports i k) ∧
      (o.stylePolicy = .isolated →
        ((ds.flatMap Descriptor.styles).map StyleRule.origin).Nodup ∧
          ∀ i, (∃ rule ∈ ds.flatMap Descriptor.styles, rule.origin = i) ↔ scene.Reaches r i) ∧
      (o.stylePolicy = .flat → ∀ d ∈ ds,
        (d.styles.map StyleRule.origin).Nodup ∧
          ∀ i, (∃ rule ∈ d.styles, rule.origin = i) ↔ scene.Reaches d.origin i) := by
  obtain ⟨t, ht, hsh, rfl⟩ := hb.forest.rootTree?_shows hr
  have hf := hb.forest
  have hnodup := hsh.nodup_ids hf
  have hperm := Tree.owned_sites_perm o t
  refine ⟨t.components o s, components_of_rootTree? ht s o, ?_, ?_, ?_, ?_, ?_⟩
  · rw [Tree.map_source_components]
    exact Tree.nodup_sources ((hperm.map Prod.fst).nodup_iff.mpr hnodup)
  · intro i k
    rw [← List.mem_map, Tree.map_source_components]
    exact mem_sources_iff fun {n} => hperm.mem_iff.trans hsh.mem_preorder
  · intro d hd i k
    obtain ⟨site, hs, rfl⟩ := List.mem_map.mp hd
    rw [← List.mem_map]
    show (i, k) ∈ (site.tree.events (t.environment o s)).map Event.source ↔ _
    rw [Tree.map_source_events]
    exact mem_sources_iff fun {n} => hsh.mem_owned hf hs
  · intro hi
    have horigins := Tree.map_origin_components hi s t
    refine ⟨horigins.nodup_iff.mpr hnodup, fun i => ?_⟩
    rw [← List.mem_map]
    exact horigins.mem_iff.trans hsh.mem_ids
  · intro hflat d hd
    obtain ⟨site, hs, rfl⟩ := List.mem_map.mp hd
    have hsite := Tree.shows_of_mem_sites hsh hs
    have horigins : (site.describe (t.environment o s)).styles.map StyleRule.origin =
        site.tree.ids := by
      rw [Tree.map_origin_styles]
      exact congrArg _ (Tree.styled_flat hflat site.tree)
    refine ⟨horigins ▸ hsite.nodup_ids hf, fun i => ?_⟩
    rw [← List.mem_map, horigins]
    exact hsite.mem_ids

theorem cardPage_components_tile :
    cardPage.Built ∧ cardPage.root = some 0 ∧
      (∃ ds, cardPage.components .empty ⟨.multi, .isolated, .inline⟩ = .ok ds ∧
        ((ds.flatMap Descriptor.events).map Event.source).Nodup ∧
        (∀ i k, (∃ e ∈ ds.flatMap Descriptor.events, e.source = (i, k)) ↔
          cardPage.Reaches 0 i ∧ cardPage.Exports i k) ∧
        (∀ d ∈ ds, ∀ i k, (∃ e ∈ d.events, e.source = (i, k)) ↔
          cardPage.Innermost ⟨.multi, .isolated, .inline⟩ 0 d.origin i ∧ cardPage.Exports i k) ∧
        ((ds.flatMap Descriptor.styles).map StyleRule.origin).Nodup ∧
        ∀ i, (∃ rule ∈ ds.flatMap Descriptor.styles, rule.origin = i) ↔ cardPage.Reaches 0 i) ∧
      ∃ ds, cardPage.components .empty ⟨.multi, .flat, .inline⟩ = .ok ds ∧ ∀ d ∈ ds,
        (d.styles.map StyleRule.origin).Nodup ∧
          ∀ i, (∃ rule ∈ d.styles, rule.origin = i) ↔ cardPage.Reaches d.origin i := by
  obtain ⟨ds, hds, hnodup, hall, heach, hisolated, -⟩ :=
    components_tile cardPage_built (r := 0) rfl .empty ⟨.multi, .isolated, .inline⟩
  obtain ⟨ds', hds', -, -, -, -, hflat⟩ :=
    components_tile cardPage_built (r := 0) rfl .empty ⟨.multi, .flat, .inline⟩
  exact ⟨cardPage_built, rfl, ⟨ds, hds, hnodup, hall, heach, hisolated rfl⟩, ds', hds', hflat rfl⟩

end Scene

end DesignComponents
