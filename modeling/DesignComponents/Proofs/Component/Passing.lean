import DesignComponents.Proofs.Component.Inheritance

/-! Defaults that are passed on. A component declares what its nested components declare, under
the same names, but of several tokens with one name it keeps the first. So it has the default of
a nested component unless it refers to the property before that component starts. -/

namespace DesignComponents

/-- The token is the only one that a component declares under a name. -/
structure Descriptor.Declares (d : Descriptor) (name : String) (k : Token) : Prop where
  mem : k ∈ d.properties
  name_eq : k.name = name
  unique : ∀ k' ∈ d.properties, k'.name = name → k' = k

theorem Descriptor.declares_of_eq_singleton {d : Descriptor} {k : Token} (h : d.properties = [k]) :
    d.Declares k.name k where
  mem := by simp [h]
  name_eq := rfl
  unique := by simp [h]

namespace Scene

/-- What a component passes on has the type and the default that the nested component gives
it. -/
def KeepsDefaults (scene : Scene) (s : Snapshot) (o : Options) : Prop :=
  ∀ ds, scene.components s o = .ok ds → ∀ d ∈ ds, ∀ i tag bindings,
    Blueprint.boundary i tag bindings ∈ d.root.elements → ∀ n ∈ ds, n.origin = i →
      ∀ p ∈ bindings, ∀ k k', d.Declares p k → n.Declares p k' →
        k.type = k'.type ∧ k.default = k'.default

theorem labelPage_not_keepsDefaults :
    labelPage.Built ∧ ¬ labelPage.KeepsDefaults .empty ⟨.multi, .isolated, .inline⟩ := by
  refine ⟨labelPage_built, fun h => ?_⟩
  obtain ⟨page, card, hds, hpage, hcard, helement, horigin⟩ : ∃ page card,
      labelPage.components .empty ⟨.multi, .isolated, .inline⟩ = .ok [page, card] ∧
        page.properties = [⟨"label", .property "Label#1:0", .string, .text "Outer"⟩] ∧
        card.properties = [⟨"label", .property "Label#1:0", .string, .text "Inner"⟩] ∧
        page.root.elements[2]? = some (.boundary 2 "card-element" ["label"]) ∧ card.origin = 2 :=
    ⟨_, _, rfl, rfl, rfl, rfl, rfl⟩
  obtain ⟨-, he⟩ := h _ hds page (by simp) 2 _ _ (List.mem_of_getElem? helement) card (by simp)
    horigin "label" (by simp) _ _ (Descriptor.declares_of_eq_singleton hpage)
    (Descriptor.declares_of_eq_singleton hcard)
  simp at he

end Scene

/-! ### The first reference around a nested component -/

theorem Source.eq_property_of_entity_eq {source : Source} {key : String}
    (h : source.entity = .property key) : source = .property key := by
  cases source with
  | property key' => rw [Identifier.Entity.property.inj h]
  | placeholder _ | «variable» _ => cases h

namespace Tree

variable {o : Options} {s : Snapshot} {t : Tree}

theorem ids_contiguous {scope : Scope} {spot : Site} (h : spot ∈ t.spots scope) :
    spot.tree.ids <:+: t.ids := by
  rw [← map_id_spots spot.scope, ← map_id_spots scope]
  exact (spots_contiguous h).map _

theorem declares_of_mem {e : Environment} {site : Site} {k : Token}
    (hk : k ∈ site.tree.properties e site.scope) : (site.describe e).Declares k.name k where
  mem := hk
  name_eq := rfl
  unique := fun _ hk' he =>
    List.inj_on_of_nodup_map (nodup_map_name_properties e site.scope site.tree) hk' hk he

/-- Wherever they are declared, tokens of one name stand for the same. -/
theorem entity_eq_of_name_eq {site inner : Site} (hs : site ∈ t.sites o) (hi : inner ∈ t.sites o)
    {k k' : Token} (hk : k ∈ site.tree.properties (t.environment o s) site.scope)
    (hk' : k' ∈ inner.tree.properties (t.environment o s) inner.scope) (he : k.name = k'.name) :
    k.source.entity = k'.source.entity := by
  obtain ⟨d, hd, rfl⟩ := exists_draft_of_mem_properties hk
  obtain ⟨d', hd', rfl⟩ := exists_draft_of_mem_properties hk'
  exact entity_eq_of_nameOf_eq (drafts_subset_of_mem_sites hs hd) (drafts_subset_of_mem_sites hi hd') he

/-- Only properties have types and defaults of their own. -/
theorem text_of_ne_property {e : Environment} {scope : Scope} {k : Token}
    (hk : k ∈ t.properties e scope) (h : ∀ key, k.source ≠ .property key) :
    k.type = .string ∧ k.default = Default.ofType .string := by
  obtain ⟨d, hd, rfl⟩ := exists_draft_of_mem_properties hk
  rw [drafts_eq_flatMap] at hd
  obtain ⟨spot, -, hd⟩ := List.mem_flatMap.mp hd
  rcases Site.mem_own_cases hd with ⟨key, -, rfl⟩ | ⟨source, label, -, rfl⟩
  · exact absurd rfl (h key)
  · exact ⟨rfl, rfl⟩

end Tree

namespace Scene

variable {s : Scene}

/-- The first reference in a subtree stays the first in every smaller subtree that has it. -/
theorem firstReference?_of_contiguous {start inner n : NodeId} {key : String}
    (hnodup : (s.descendants s.size start).Nodup)
    (hpart : s.descendants s.size inner <:+: s.descendants s.size start)
    (h : s.firstReference? start key = some n) (hn : n ∈ s.descendants s.size inner) :
    s.firstReference? inner key = some n := by
  obtain ⟨before, after, he⟩ := hpart
  have hp : s.refersTo key n = true := List.find?_some h
  rw [firstReference?, ← he, List.append_assoc, List.find?_append] at h
  rw [← he, List.append_assoc, List.nodup_append] at hnodup
  cases hb : before.find? (s.refersTo key) with
  | some m =>
    -- the first reference is no node before the smaller subtree
    rw [hb, Option.some_or, Option.some.injEq] at h
    subst h
    exact absurd rfl (hnodup.2.2 m (List.mem_of_find?_eq_some hb) m (List.mem_append_left _ hn))
  | none =>
    rw [hb, Option.none_or, List.find?_append] at h
    obtain ⟨m, hm⟩ : ∃ m, s.firstReference? inner key = some m :=
      Option.isSome_iff_exists.mp (List.find?_isSome.mpr ⟨n, hn, hp⟩)
    rw [show (s.descendants s.size inner).find? (s.refersTo key) = some m from hm] at h
    exact hm.trans h

/-- What a component passes on has the default of the nested component if no node outside of that
refers to it first. -/
theorem Shows.type_default_eq (hf : s.Forest) {t : Tree} (h : s.Shows t) (hr : s.root = some t.id)
    {o : Options} {snapshot : Snapshot} {site inner : Site} (hs : site ∈ t.sites o)
    (hi : inner ∈ site.tree.nestedSites o site.scope) {k k' : Token}
    (hk : k ∈ site.tree.properties (t.environment o snapshot) site.scope)
    (hk' : k' ∈ inner.tree.properties (t.environment o snapshot) inner.scope)
    (he : k.source.entity = k'.source.entity)
    (hfirst : ∀ key m, k'.source = .property key → s.firstReference? site.tree.id key = some m →
      s.Reaches inner.tree.id m) :
    k.type = k'.type ∧ k.default = k'.default := by
  have hinner := Tree.mem_sites_of_nested hs hi
  by_cases hsource : ∃ key, k'.source = .property key
  · obtain ⟨key, hkey'⟩ := hsource
    have hkey : k.source = .property key :=
      Source.eq_property_of_entity_eq (by rw [he, hkey']; rfl)
    have hscoped := Scoped.of_mem_sites h hs
    have hscoped' := Scoped.of_mem_sites h hinner
    obtain ⟨m, value, hm, hvalue, hg⟩ := hscoped.exists_firstReference hf hk hkey
    obtain ⟨m', value', hm', hvalue', hg'⟩ := hscoped'.exists_firstReference hf hk' hkey'
    have hids := hscoped.shows.descendants_eq hf (Nat.le_refl _)
    have hids' := hscoped'.shows.descendants_eq hf (Nat.le_refl _)
    -- both components take the default at the same node
    have hsame : s.firstReference? inner.tree.id key = some m := by
      refine firstReference?_of_contiguous (hids ▸ hscoped.shows.nodup_ids hf) ?_ hm ?_
      · rw [hids, hids']
        exact Tree.ids_contiguous (Tree.nestedSites_subset_spots o _ _ hi)
      · rw [hids']
        exact hscoped'.shows.mem_ids.mpr (hfirst key m hkey' hm)
    obtain rfl := Option.some.inj (hsame.symm.trans hm')
    obtain rfl := hvalue.unique hf hr hvalue'
    exact Prod.mk.inj (hg.propertyDefault_eq.symm.trans hg'.propertyDefault_eq)
  · have hne' : ∀ key, k'.source ≠ .property key := fun key hkey => hsource ⟨key, hkey⟩
    have hne : ∀ key, k.source ≠ .property key := fun key hkey =>
      hne' key (Source.eq_property_of_entity_eq (by rw [← he, hkey]; rfl))
    obtain ⟨htype, hdefault⟩ := Tree.text_of_ne_property hk hne
    obtain ⟨htype', hdefault'⟩ := Tree.text_of_ne_property hk' hne'
    exact ⟨htype.trans htype'.symm, hdefault.trans hdefault'.symm⟩

/-- How a component declares what a nested one that starts at a node declares. -/
structure Passes (s : Scene) (r : NodeId) (d : Descriptor) (i : NodeId) (k k' : Token) : Prop where
  entity_eq : k.source.entity = k'.source.entity
  /-- A property has the default that it has at its first reference in the outer component, -/
  outer : ∀ key, k'.source = .property key →
    ∃ m value, s.firstReference? d.origin key = some m ∧ s.Inherits r key m value ∧
      Gives value k.type k.default
  /-- which is that of the nested one unless it comes before that starts. -/
  inner : (∀ key m, k'.source = .property key → s.firstReference? d.origin key = some m →
    s.Reaches i m) → k.type = k'.type ∧ k.default = k'.default

theorem Shows.passes (hf : s.Forest) {t : Tree} (h : s.Shows t) (hr : s.root = some t.id)
    {o : Options} {snapshot : Snapshot} {site inner : Site} (hs : site ∈ t.sites o)
    (hi : inner ∈ site.tree.nestedSites o site.scope) {k k' : Token}
    (hk : k ∈ site.tree.properties (t.environment o snapshot) site.scope)
    (hk' : k' ∈ inner.tree.properties (t.environment o snapshot) inner.scope)
    (hname : k.name = k'.name) :
    s.Passes t.id (site.describe (t.environment o snapshot)) inner.tree.id k k' := by
  have he := Tree.entity_eq_of_name_eq hs (Tree.mem_sites_of_nested hs hi) hk hk' hname
  refine ⟨he, fun key hkey => ?_, h.type_default_eq hf hr hs hi hk hk' he⟩
  have hsource : k.source = .property key :=
    Source.eq_property_of_entity_eq (by rw [he, hkey]; rfl)
  exact (Scoped.of_mem_sites h hs).exists_firstReference hf hk hsource

/-- A component and a nested one declare every name that is passed on, for the same dynamic
value. Types and defaults agree unless the outer component refers to a property outside of
the nested one first, where the first reference wins. -/
theorem passed_defaults {scene : Scene} (hb : scene.Built) {r : NodeId} (hr : scene.root = some r)
    (s : Snapshot) (o : Options) :
    ∃ ds, scene.components s o = .ok ds ∧ ∀ d ∈ ds, ∀ i tag bindings,
      Blueprint.boundary i tag bindings ∈ d.root.elements → ∃ n ∈ ds, n.origin = i ∧ n.tag = tag ∧
        ∀ p ∈ bindings, ∃ k k', d.Declares p k ∧ n.Declares p k' ∧ scene.Passes r d i k k' := by
  have hf := hb.forest
  obtain ⟨t, ht, hsh, rfl⟩ := hf.rootTree?_shows hr
  refine ⟨t.components o s, components_of_rootTree? ht s o, fun d hd i tag bindings helement => ?_⟩
  obtain ⟨site, hs, rfl⟩ := List.mem_map.mp hd
  obtain ⟨inner, hi, rfl, rfl, rfl⟩ := Tree.exists_site_of_boundary helement
  have hinner := Tree.mem_sites_of_nested hs hi
  refine ⟨_, List.mem_map_of_mem hinner, rfl, rfl, fun p hp => ?_⟩
  obtain ⟨k', hk', rfl⟩ := List.mem_map.mp hp
  obtain ⟨draft, hdraft, hname'⟩ := Tree.mem_map_name_properties.mp hp
  -- what the nested component draws on is drawn on by the outer one, under the same name
  obtain ⟨k, hk, hname⟩ := List.mem_map.mp (Tree.mem_map_name_properties.mpr
    ⟨draft, Tree.drafts_subset_of_mem_nestedSites hi hdraft, hname'⟩)
  exact ⟨k, k', hname ▸ Tree.declares_of_mem hk, Tree.declares_of_mem hk',
    hsh.passes hf hr hs hi hk hk' hname⟩

theorem labelPage_passed_defaults :
    labelPage.Built ∧ labelPage.root = some 0 ∧
      ∃ ds, labelPage.components .empty ⟨.multi, .isolated, .inline⟩ = .ok ds ∧
        ∀ d ∈ ds, ∀ i tag bindings, Blueprint.boundary i tag bindings ∈ d.root.elements →
          ∃ n ∈ ds, n.origin = i ∧ n.tag = tag ∧ ∀ p ∈ bindings,
            ∃ k k', d.Declares p k ∧ n.Declares p k' ∧ labelPage.Passes 0 d i k k' :=
  ⟨labelPage_built, rfl, passed_defaults labelPage_built (r := 0) rfl _ _⟩

end Scene

end DesignComponents
