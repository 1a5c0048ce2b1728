import DesignComponents.Proofs.Component.Enumeration
import DesignComponents.Proofs.Component.Tiling

/-! Declarations that do not clash. Over all components of a scene every tag, every class and every
event has a name of its own, and so have the members of one component and the rules of one
sheet. The name of an event joins a tag and the word for a trigger by a dash; tags have dashes,
too, but the words have none, so that both parts can be told from the name. -/

namespace DesignComponents

open Identifier (Entity Namespace Table)

/-! ### Names of events -/

namespace Trigger

theorem slug_injective : Function.Injective slug := by
  intro a b h
  cases a <;> cases b <;> simp_all [slug]

theorem dash_notMem_slug (k : Trigger) : '-' ∉ k.slug.toList := by
  cases k <;> decide

end Trigger

/-- The text behind the last dash. -/
def lastPart (name : List Char) : List Char := (name.reverse.takeWhile (· ≠ '-')).reverse

theorem lastPart_append {word : List Char} (h : '-' ∉ word) (before : List Char) :
    lastPart (before ++ '-' :: word) = word := by
  have hword : ∀ c ∈ word.reverse, decide (c ≠ '-') = true := by
    intro c hc
    have hne : c ≠ '-' := fun he => h (he ▸ List.mem_reverse.mp hc)
    simpa using hne
  rw [lastPart, List.reverse_append, List.reverse_cons, List.append_assoc,
    List.takeWhile_append_of_pos hword]
  simp

/-- The name of the event of a trigger at a node with the given tag. -/
def eventName (tag : String) (k : Trigger) : String := tag ++ "-" ++ k.slug

theorem eventName_inj {tag tag' : String} {k k' : Trigger} :
    eventName tag k = eventName tag' k' ↔ tag = tag' ∧ k = k' := by
  constructor
  · intro h
    have hl : tag.toList ++ '-' :: k.slug.toList = tag'.toList ++ '-' :: k'.slug.toList := by
      simpa [eventName] using congrArg String.toList h
    have hword : k.slug.toList = k'.slug.toList := by
      rw [← lastPart_append k.dash_notMem_slug tag.toList, hl, lastPart_append k'.dash_notMem_slug]
    rw [hword, List.append_cancel_right_eq] at hl
    exact ⟨String.toList_inj.mp hl, Trigger.slug_injective (String.toList_inj.mp hword)⟩
  · rintro ⟨rfl, rfl⟩
    rfl

theorem Source.entity_ne_event (source : Source) (i : NodeId) (k : Trigger) :
    source.entity ≠ .event i k := by
  cases source <;> exact Entity.noConfusion

/-- The names of all members that a component declares. -/
def Descriptor.memberNames (d : Descriptor) : List String :=
  d.properties.map Token.name ++ d.events.map Event.handler

/-- No two declarations of some components have one name. -/
structure Distinct (ds : List Descriptor) : Prop where
  tags : (ds.map Descriptor.tag).Nodup
  classes : (ds.map Descriptor.className).Nodup
  events : ((ds.flatMap Descriptor.events).map Event.name).Nodup
  members : ∀ d ∈ ds, d.memberNames.Nodup
  /-- Members have no names that every class has from the start. -/
  unreserved : ∀ d ∈ ds, ∀ name ∈ d.memberNames, name ∉ Identifier.reservedMembers
  selectors : ∀ d ∈ ds, (d.styles.map StyleRule.selector).Nodup

namespace Tree

variable {o : Options} {s : Snapshot} {t : Tree}

/-! ### Nodes with rules and events -/

theorem nodup_owned (h : t.ids.Nodup) (o : Options) : ((t.owned o).map Prod.fst).Nodup := by
  have hall := ((owned_append_nested_perm o .empty t).map Prod.fst).nodup_iff.mpr h
  rw [List.map_append] at hall
  exact (List.nodup_append.mp hall).1

theorem nodup_styled (h : t.ids.Nodup) (o : Options) : ((t.styled o).map Prod.fst).Nodup := by
  cases hp : o.stylePolicy with
  | flat => exact (styled_flat hp t) ▸ h
  | isolated => exact (styled_isolated hp t) ▸ nodup_owned h o

/-- Every node below a site is a node of the tree. -/
theorem mem_ids_of_mem_sites {site : Site} (hs : site ∈ t.sites o) {n : NodeId × Node}
    (hn : n ∈ site.tree.preorder) : n.1 ∈ t.ids :=
  List.mem_map_of_mem (preorder_subset_of_mem_sites hs hn)

theorem id_mem_ids_of_mem_sites {site : Site} (hs : site ∈ t.sites o) : site.tree.id ∈ t.ids :=
  (ids_sites_sublist o t).subset (List.mem_map.mpr ⟨site, hs, rfl⟩)

theorem exists_owned_of_mem_signals {g : Signal} (h : g ∈ t.signals o) :
    ∃ node, (g.origin, node) ∈ t.owned o := by
  obtain ⟨n, hn, hk⟩ := List.mem_flatMap.mp h
  obtain ⟨k, -, rfl⟩ := List.mem_map.mp hk
  exact ⟨n.2, hn⟩

/-- An event belongs to a signal and has the names that belong to its node and its trigger. -/
theorem signal_of_mem_events {e : Environment} {v : Event} (h : v ∈ t.events e) :
    ⟨v.origin, v.trigger⟩ ∈ t.signals e.options ∧
      v.name = eventName (e.tagOf v.origin) v.trigger ∧
      v.handler = e.names.nameOf .member (.event v.origin v.trigger) := by
  obtain ⟨g, hg, rfl⟩ := List.mem_map.mp h
  exact ⟨hg, rfl, rfl⟩

/-! ### Different names for different things -/

theorem tagOf_plan_inj {i j : NodeId} (hi : i ∈ t.ids) (hj : j ∈ t.ids)
    (he : (t.plan o s).tagOf i = (t.plan o s).tagOf j) : i = j :=
  Entity.node.inj
    ((consistent_plan o s t).nameOf_inj (tag_mem_keys_plan hi) (tag_mem_keys_plan hj) he)

theorem nodup_tags (h : t.ids.Nodup) : ((t.components o s).map Descriptor.tag).Nodup := by
  refine nodup_map_of_nodup_map (nodup_origins_components h) fun d hd d' hd' he => ?_
  obtain ⟨site, hs, rfl⟩ := List.mem_map.mp hd
  obtain ⟨site', hs', rfl⟩ := List.mem_map.mp hd'
  exact tagOf_plan_inj (id_mem_ids_of_mem_sites hs) (id_mem_ids_of_mem_sites hs') he

theorem nodup_classes (h : t.ids.Nodup) : ((t.components o s).map Descriptor.className).Nodup := by
  refine nodup_map_of_nodup_map (nodup_origins_components h) fun d hd d' hd' he => ?_
  obtain ⟨site, hs, rfl⟩ := List.mem_map.mp hd
  obtain ⟨site', hs', rfl⟩ := List.mem_map.mp hd'
  exact Entity.node.inj ((consistent_plan o s t).nameOf_inj (class_mem_keys_plan hs)
    (class_mem_keys_plan hs') he)

theorem nodup_sources_components (h : t.ids.Nodup) :
    (((t.components o s).flatMap Descriptor.events).map Event.source).Nodup := by
  rw [map_source_components]
  exact nodup_sources (((owned_sites_perm o t).map Prod.fst).nodup_iff.mpr h)

theorem nodup_event_names (h : t.ids.Nodup) :
    (((t.components o s).flatMap Descriptor.events).map Event.name).Nodup := by
  have hname : ∀ v ∈ (t.components o s).flatMap Descriptor.events,
      v.name = eventName ((t.plan o s).tagOf v.origin) v.trigger ∧ v.origin ∈ t.ids := by
    intro v hv
    obtain ⟨d, hd, hv⟩ := List.mem_flatMap.mp hv
    obtain ⟨site, hs, rfl⟩ := List.mem_map.mp hd
    obtain ⟨hg, hn, -⟩ := signal_of_mem_events hv
    obtain ⟨node, hnode⟩ := exists_owned_of_mem_signals hg
    exact ⟨hn, mem_ids_of_mem_sites hs (owned_subset_preorder o _ hnode)⟩
  refine nodup_map_of_nodup_map (nodup_sources_components h) fun v hv v' hv' he => ?_
  rw [(hname v hv).1, (hname v' hv').1, eventName_inj] at he
  exact Prod.ext (tagOf_plan_inj (hname v hv).2 (hname v' hv').2 he.1) he.2

theorem nodup_selectors {site : Site} (hs : site ∈ t.sites o)
    (hsite : site.tree.ids.Nodup) :
    ((site.describe (t.environment o s)).styles.map StyleRule.selector).Nodup := by
  refine nodup_map_of_nodup_map (f := StyleRule.origin) ?_ fun rule hrule rule' hrule' he => ?_
  · rw [map_origin_styles]
    exact nodup_styled hsite o
  · obtain ⟨n, hn, rfl⟩ := List.mem_map.mp hrule
    obtain ⟨n', hn', rfl⟩ := List.mem_map.mp hrule'
    exact tagOf_plan_inj (mem_ids_of_mem_sites hs (styled_subset_preorder o _ hn))
      (mem_ids_of_mem_sites hs (styled_subset_preorder o _ hn')) he

/-- A member stands for a dynamic value or for an event, and has its name from the table. -/
theorem exists_entity_of_mem_memberNames {site : Site} (hs : site ∈ t.sites o) {name : String}
    (h : name ∈ (site.describe (t.environment o s)).memberNames) :
    ∃ a, (Namespace.member, a) ∈ (t.plan o s).keys ∧ (t.plan o s).nameOf .member a = name := by
  rcases List.mem_append.mp h with h | h
  · obtain ⟨d, hd, hn⟩ := mem_map_name_properties.mp h
    exact ⟨_, draft_mem_keys_plan hs hd, hn⟩
  · obtain ⟨v, hv, rfl⟩ := List.mem_map.mp h
    obtain ⟨hg, -, hn⟩ := signal_of_mem_events hv
    exact ⟨_, signal_mem_keys_plan hs hg, hn.symm⟩

theorem nodup_memberNames {site : Site} (hs : site ∈ t.sites o) (hsite : site.tree.ids.Nodup) :
    (site.describe (t.environment o s)).memberNames.Nodup := by
  have hc := consistent_plan o s t
  rw [Descriptor.memberNames, List.nodup_append]
  refine ⟨nodup_map_name_properties _ _ _, ?_, ?_⟩
  · refine nodup_map_of_nodup_map (f := Event.source) ?_ fun v hv v' hv' he => ?_
    · show ((site.tree.events (t.environment o s)).map Event.source).Nodup
      rw [map_source_events]
      exact nodup_sources (nodup_owned hsite o)
    · obtain ⟨hg, -, hn⟩ := signal_of_mem_events hv
      obtain ⟨hg', -, hn'⟩ := signal_of_mem_events hv'
      rw [hn, hn'] at he
      obtain ⟨hi, hk⟩ := Entity.event.inj
        (hc.nameOf_inj (signal_mem_keys_plan hs hg) (signal_mem_keys_plan hs hg') he)
      exact Prod.ext hi hk
  · rintro name hp _ hh rfl
    obtain ⟨d, hd, hname⟩ := mem_map_name_properties.mp hp
    obtain ⟨v, hv, hv'⟩ := List.mem_map.mp hh
    obtain ⟨hg, -, hn⟩ := signal_of_mem_events hv
    refine Source.entity_ne_event d.source v.origin v.trigger ?_
    exact hc.nameOf_inj (draft_mem_keys_plan hs hd) (signal_mem_keys_plan hs hg)
      (hname.trans (hv'.symm.trans hn))

end Tree

namespace Scene

/-- In the components of a scene nothing is declared twice. -/
theorem components_distinct {scene : Scene} (hb : scene.Built) {r : NodeId}
    (hr : scene.root = some r) (s : Snapshot) (o : Options) :
    ∃ ds, scene.components s o = .ok ds ∧ Distinct ds := by
  have hf := hb.forest
  obtain ⟨t, ht, hsh, -⟩ := hf.rootTree?_shows hr
  have hnodup := hsh.nodup_ids hf
  refine ⟨t.components o s, components_of_rootTree? ht s o, ?_⟩
  constructor
  case tags => exact Tree.nodup_tags hnodup
  case classes => exact Tree.nodup_classes hnodup
  case events => exact Tree.nodup_event_names hnodup
  case members =>
    intro d hd
    obtain ⟨site, hs, rfl⟩ := List.mem_map.mp hd
    exact Tree.nodup_memberNames hs ((Tree.shows_of_mem_sites hsh hs).nodup_ids hf)
  case unreserved =>
    intro d hd name hn
    obtain ⟨site, hs, rfl⟩ := List.mem_map.mp hd
    obtain ⟨a, ha, rfl⟩ := Tree.exists_entity_of_mem_memberNames hs hn
    exact (Tree.consistent_plan o s t).notMem_reserved (Table.lookup_nameOf ha)
  case selectors =>
    intro d hd
    obtain ⟨site, hs, rfl⟩ := List.mem_map.mp hd
    exact Tree.nodup_selectors hs ((Tree.shows_of_mem_sites hsh hs).nodup_ids hf)

theorem cardPage_components_distinct :
    cardPage.Built ∧ cardPage.root = some 0 ∧
      ∃ ds, cardPage.components .empty ⟨.multi, .flat, .inline⟩ = .ok ds ∧ Distinct ds :=
  ⟨cardPage_built, rfl, components_distinct cardPage_built (r := 0) rfl .empty _⟩

end Scene

end DesignComponents
