import DesignComponents.Proofs.Collections
import DesignComponents.Proofs.Component.Classification
import DesignComponents.Proofs.Identifier.Consistency
import DesignComponents.Proofs.Markup.Members
import Mathlib.Data.List.Induction

/-! The properties of a component as a flat list. Walking a tree node by node, without regard to
boundaries, and keeping the first token of every name gives the properties that the component
of the tree declares. They do not depend on the division of the scene, and each dynamic value
below has exactly one token. -/

namespace DesignComponents

open Identifier (Namespace Request Table)

theorem TokenSet.tokens_insertAll (ts : List Token) :
    (empty.insertAll ts).tokens = firsts Token.name ts := by
  induction ts using List.reverseRecOn with
  | nil => rfl
  | append_singleton ts t ih =>
    have hcontains : (empty.insertAll ts).contains t.name = true ↔ t.name ∈ ts.map Token.name := by
      rw [contains_iff, names, ih, mem_map_firsts]
    rw [insertAll_append, firsts_concat, ← ih]
    show ((empty.insertAll ts).insert t).tokens = _
    rw [insert]
    by_cases h : t.name ∈ ts.map Token.name
    · rw [if_pos (hcontains.mpr h), if_pos h, List.append_nil]
    · rw [if_neg (mt hcontains.mp h), if_neg h]

namespace Tree

/-- The text of a node without a list of children. -/
def text? : Tree → Option String
  | branch _ _ _ => none
  | leaf _ node => node.characters

mutual

/-- Every node as the start of a tree of its own, with the scope around it, in depth-first
order. -/
def spots (scope : Scope) : Tree → List Site
  | branch id node children =>
    ⟨scope, branch id node children⟩ :: spotsAll (scope.enter node) children
  | leaf id node => [⟨scope, leaf id node⟩]

def spotsAll (scope : Scope) : List Tree → List Site
  | [] => []
  | t :: ts => spots scope t ++ spotsAll scope ts

end

theorem spotsAll_eq (scope : Scope) (ts : List Tree) : spotsAll scope ts = ts.flatMap (spots scope) := by
  induction ts with
  | nil => rfl
  | cons t ts ih => rw [spotsAll, ih, List.flatMap_cons]

@[simp] theorem spots_branch (scope : Scope) (id : NodeId) (node : Node) (children : List Tree) :
    (branch id node children).spots scope =
      ⟨scope, branch id node children⟩ :: children.flatMap (spots (scope.enter node)) := by
  rw [spots, spotsAll_eq]

@[simp] theorem spots_leaf (scope : Scope) (id : NodeId) (node : Node) :
    (leaf id node).spots scope = [⟨scope, leaf id node⟩] := rfl

end Tree

namespace Site

/-- The dynamic values that a node refers to by their keys. -/
def referred (site : Site) : List Draft :=
  site.tree.node.references.values.map (Draft.property (site.scope.enter site.tree.node))

/-- The dynamic values that a node draws on, in order: those that it refers to, and then what its
text is bound to, from left to right. -/
inductive Draws (s : Snapshot) (site : Site) : List Draft → Prop
  | other (ht : site.tree.text? = none) : Draws s site site.referred
  | placeholders {text : String} {segments : List Text.Segment} (ht : site.tree.text? = some text)
      (hb : Binding.Fits s site.tree.node text (.placeholders segments)) :
      Draws s site (site.referred ++ (segments.filterMap Text.Segment.body?).map fun body =>
        ⟨.placeholder body, body, .string, .text ""⟩)
  | property {text key : String} (ht : site.tree.text? = some text)
      (hb : Binding.Fits s site.tree.node text (.property key)) :
      Draws s site
        (site.referred ++ [Draft.property (site.scope.enter site.tree.node) key])
  | variable {text label : String} {id : VariableId} (ht : site.tree.text? = some text)
      (hb : Binding.Fits s site.tree.node text (.variable id label)) :
      Draws s site (site.referred ++ [⟨.variable id, label, .string, .text ""⟩])
  | literal {text : String} (ht : site.tree.text? = some text)
      (hb : Binding.Fits s site.tree.node text (.literal text)) : Draws s site site.referred

/-- The drafts of the node alone. -/
def own (s : Snapshot) (site : Site) : List Draft :=
  site.referred ++
    if site.tree.text?.isSome then
      Draft.ofBinding (site.scope.enter site.tree.node) (Binding.classify s site.tree.node)
    else []

/-- Their tokens, with the names of a table. -/
def tokens (s : Snapshot) (names : Table) (site : Site) : List Token :=
  (site.own s).map (·.named names)

theorem characters_of_text? {t : Tree} {text : String} (h : t.text? = some text) :
    t.node.characters = some text := by
  cases t with
  | branch id node children => cases h
  | leaf id node => exact h

theorem ofBinding_placeholders (scope : Scope) (segments : List Text.Segment) :
    Draft.ofBinding scope (.placeholders segments) =
      (segments.filterMap Text.Segment.body?).map fun body =>
        ⟨.placeholder body, body, .string, .text ""⟩ := by
  rw [Draft.ofBinding, List.map_filterMap]
  refine List.filterMap_congr fun segment _ => ?_
  cases segment <;> rfl

theorem draws_own (s : Snapshot) (site : Site) : site.Draws s (site.own s) := by
  rw [own]
  cases ht : site.tree.text? with
  | none =>
    rw [Option.isSome_none, if_neg Bool.false_ne_true, List.append_nil]
    exact .other ht
  | some text =>
    have hfits := Binding.fits_classify (s := s) (characters_of_text? ht)
    rw [Option.isSome_some, if_pos rfl]
    generalize Binding.classify s site.tree.node = b at hfits ⊢
    cases b with
    | placeholders segments =>
      rw [ofBinding_placeholders]
      exact .placeholders ht hfits
    | property key => exact .property ht hfits
    | «variable» id label => exact .variable ht hfits
    | literal text' =>
      rw [Draft.ofBinding, List.append_nil]
      cases hfits with
      | literal hp hr hv => exact .literal ht (.literal hp hr hv)

theorem property_mem_own {s : Snapshot} {site : Site} {key : String}
    (h : key ∈ site.tree.node.references.values) :
    Draft.property (site.scope.enter site.tree.node) key ∈ site.own s :=
  List.mem_append_left _ (List.mem_map_of_mem h)

end Site

namespace Tree

theorem map_id_spots (scope : Scope) (t : Tree) : (t.spots scope).map (·.tree.id) = t.ids := by
  induction t generalizing scope with
  | leaf id node => rfl
  | branch id node children ih =>
    rw [spots_branch, ids_branch, List.map_cons, List.map_flatMap]
    exact congrArg (id :: ·) (List.flatMap_congr fun c hc => ih c hc _)

theorem drafts_eq_flatMap (s : Snapshot) (scope : Scope) (t : Tree) :
    t.drafts s scope = (t.spots scope).flatMap (Site.own s) := by
  induction t generalizing scope with
  | leaf id node =>
    rw [spots_leaf, List.flatMap_singleton]
    rfl
  | branch id node children ih =>
    rw [drafts_branch, spots_branch, List.flatMap_cons, List.flatMap_assoc]
    congr 1
    exact List.flatMap_congr fun c hc => ih c hc _

theorem self_mem_spots (scope : Scope) (t : Tree) : ⟨scope, t⟩ ∈ t.spots scope := by
  cases t <;> simp

theorem nestedSites_subset_spots (o : Options) (scope : Scope) (t : Tree) :
    t.nestedSites o scope ⊆ t.spots scope := by
  induction t generalizing scope with
  | leaf id node => simp
  | branch id node children ih =>
    intro site hs
    rw [spots_branch]
    refine List.mem_cons_of_mem _ (List.mem_flatMap.mpr ?_)
    obtain ⟨c, hc, ⟨-, rfl⟩ | hs⟩ := mem_nestedSites_branch.mp hs
    · exact ⟨c, hc, self_mem_spots _ c⟩
    · exact ⟨c, hc, ih c hc _ hs⟩

theorem sites_subset_spots (o : Options) (t : Tree) : t.sites o ⊆ t.spots .empty := by
  intro site hs
  rcases mem_sites.mp hs with rfl | hs
  · exact self_mem_spots _ t
  · exact nestedSites_subset_spots o _ t hs

/-- The nodes of a subtree stand together in the order of the whole tree. -/
theorem spots_contiguous {scope : Scope} {t : Tree} {spot : Site} (h : spot ∈ t.spots scope) :
    spot.tree.spots spot.scope <:+: t.spots scope := by
  induction t generalizing scope with
  | leaf id node =>
    rw [spots_leaf, List.mem_singleton] at h
    subst h
    exact List.infix_rfl
  | branch id node children ih =>
    rw [spots_branch, List.mem_cons, List.mem_flatMap] at h
    rcases h with rfl | ⟨c, hc, h⟩
    · exact List.infix_rfl
    · have hchild : c.spots (scope.enter node) <:+: children.flatMap (spots (scope.enter node)) :=
        List.flatMap_def ▸ List.infix_of_mem_flatten (List.mem_map_of_mem hc)
      rw [spots_branch]
      exact (ih c hc h).trans (hchild.trans (List.suffix_cons _ _).isInfix)

theorem properties_eq_firsts (e : Environment) (scope : Scope) (t : Tree) :
    t.properties e scope =
      firsts Token.name ((t.spots scope).flatMap (Site.tokens e.snapshot e.names)) := by
  rw [properties_eq, TokenSet.tokens_insertAll, drafts_eq_flatMap, List.map_flatMap]
  rfl

/-! ### Independence of the division -/

variable {o : Options} {s : Snapshot} {t : Tree}

/-- The dynamic values of the whole tree are named first, before anything depends on the
division. -/
theorem lookup_plan_of_mem_drafts (o : Options) {d : Draft} (hd : d ∈ t.drafts s .empty) :
    (t.plan o s).lookup .member d.source.entity =
      ((t.planTags .empty).assignAll ((t.drafts s .empty).map Draft.request)).lookup .member
        d.source.entity := by
  have hr : d.request ∈ (t.drafts s .empty).map Draft.request := List.mem_map_of_mem hd
  obtain ⟨name, hn⟩ := Table.exists_lookup_assignAll (t.planTags .empty) hr
  have hn' : ((t.planTags .empty).assignAll ((t.drafts s .empty).map Draft.request)).lookup .member
      d.source.entity = some name := hn
  rw [hn', plan]
  -- the first site is the whole tree, so the requests for its values come before all others
  refine Table.lookup_assignAll_of_some ?_ _
  rw [sites, List.flatMap_cons, Table.assignAll_append, Site.memberRequests, Table.assignAll_append]
  exact Table.lookup_assignAll_of_some (Table.lookup_assignAll_of_some hn' _) _

theorem properties_plan_eq (o o' : Options) (s : Snapshot) (t : Tree) :
    t.properties (t.environment o s) .empty = t.properties (t.environment o' s) .empty := by
  refine properties_congr fun d hd => ?_
  rw [Table.nameOf, Table.nameOf, lookup_plan_of_mem_drafts o hd, lookup_plan_of_mem_drafts o' hd]

/-! ### One token for each value -/

theorem exists_draft_of_mem_properties {e : Environment} {scope : Scope} {k : Token}
    (h : k ∈ t.properties e scope) : ∃ d ∈ t.drafts e.snapshot scope, k = d.named e.names := by
  rw [properties_eq, TokenSet.tokens_insertAll] at h
  obtain ⟨d, hd, rfl⟩ := List.mem_map.mp ((firsts_sublist _).subset h)
  exact ⟨d, hd, rfl⟩

theorem nodup_map_name_properties (e : Environment) (scope : Scope) (t : Tree) :
    ((t.properties e scope).map Token.name).Nodup := by
  rw [properties_eq_firsts]
  exact nodup_map_firsts _

/-- Different dynamic values of a tree have different names. -/
theorem entity_eq_of_nameOf_eq {d d' : Draft} (hd : d ∈ t.drafts s .empty)
    (hd' : d' ∈ t.drafts s .empty)
    (he : (t.plan o s).nameOf .member d.source.entity = (t.plan o s).nameOf .member d'.source.entity) :
    d.source.entity = d'.source.entity := by
  have hroot : ⟨.empty, t⟩ ∈ t.sites o := mem_sites.mpr (.inl rfl)
  exact (consistent_plan o s t).nameOf_inj (draft_mem_keys_plan hroot hd)
    (draft_mem_keys_plan hroot hd') he

/-- What a component draws on is drawn on by the whole tree. -/
theorem drafts_subset_of_mem_sites {site : Site} (hs : site ∈ t.sites o) :
    site.tree.drafts s site.scope ⊆ t.drafts s .empty := by
  rcases mem_sites.mp hs with rfl | hs
  · exact List.Subset.refl _
  · exact drafts_subset_of_mem_nestedSites hs

/-- Every dynamic value of a site has one token: different values have different names. -/
theorem existsUnique_token {site : Site} (hs : site ∈ t.sites o) {d : Draft}
    (hd : d ∈ site.tree.drafts s site.scope) :
    ∃! k, k ∈ (site.describe (t.environment o s)).properties ∧
      k.source.entity = d.source.entity := by
  have hnames := nodup_map_name_properties (t.environment o s) site.scope site.tree
  have hsub := drafts_subset_of_mem_sites (s := s) hs
  obtain ⟨k, hk, hkn⟩ := List.mem_map.mp (nameOf_mem_propertyNames (o := o) (t := t) hd)
  obtain ⟨d', hd', rfl⟩ := exists_draft_of_mem_properties hk
  -- the token that has the name of the value is a token of the value
  have hent : d'.source.entity = d.source.entity := entity_eq_of_nameOf_eq (hsub hd') (hsub hd) hkn
  refine ⟨d'.named (t.plan o s), ⟨hk, hent⟩, ?_⟩
  rintro k' ⟨hk', he⟩
  obtain ⟨d'', -, rfl⟩ := exists_draft_of_mem_properties hk'
  refine List.inj_on_of_nodup_map hnames hk' hk ?_
  show (t.plan o s).nameOf .member d''.source.entity = (t.plan o s).nameOf .member d'.source.entity
  rw [hent, ← he]
  rfl

/-- What a node draws on is drawn on by every site around it. -/
theorem own_subset_drafts {scope : Scope} {spot : Site} (h : spot ∈ t.spots scope) :
    spot.own s ⊆ t.drafts s scope := by
  intro d hd
  rw [drafts_eq_flatMap]
  exact List.mem_flatMap.mpr ⟨spot, h, hd⟩

end Tree

/-- The properties of a component are those of the nodes at and below a site, boundaries or
not. -/
structure Descriptor.Collects (d : Descriptor) (s : Snapshot) (names : Table) (site : Site) :
    Prop where
  origin_eq : d.origin = site.tree.id
  /-- Of the tokens of all nodes, in depth-first order, the first one of every name is kept. -/
  properties_eq : ∃ drafts, List.Forall₂ (Site.Draws s) (site.tree.spots site.scope) drafts ∧
    d.properties = firsts Token.name (drafts.flatten.map (·.named names))
  nodup_names : (d.properties.map Token.name).Nodup
  /-- A key that a node refers to has one token, -/
  reference_once : ∀ spot ∈ site.tree.spots site.scope, ∀ key ∈ spot.tree.node.references.values,
    ∃! k, k ∈ d.properties ∧ k.source.entity = .property key
  /-- and so has every placeholder in a text, -/
  placeholder_once : ∀ spot ∈ site.tree.spots site.scope, ∀ text, spot.tree.text? = some text →
    ∀ body, .placeholder body ∈ Text.segments text →
      ∃! k, k ∈ d.properties ∧ k.source.entity = .placeholder (Namespace.member.normalize body)
  /-- and a variable with a known name that a text is bound to. -/
  variable_once : ∀ spot ∈ site.tree.spots site.scope, ∀ text, spot.tree.text? = some text →
    (∀ body, .placeholder body ∉ Text.segments text) → spot.tree.node.textReference = none →
      ∀ id label, spot.tree.node.boundVariable = some id → s.variableName? id = some label →
        ∃! k, k ∈ d.properties ∧ k.source.entity = .variable id

theorem Tree.collects_of_mem_sites {o : Options} {s : Snapshot} {t : Tree} {site : Site}
    (hs : site ∈ t.sites o) :
    (site.describe (t.environment o s)).Collects s (t.plan o s) site := by
  have htext : ∀ {spot}, spot ∈ site.tree.spots site.scope → ∀ {text b},
      spot.tree.text? = some text → Binding.Fits s spot.tree.node text b →
        Draft.ofBinding (spot.scope.enter spot.tree.node) b ⊆
          site.tree.drafts s site.scope := by
    intro spot hspot text b ht hb d hd
    refine own_subset_drafts hspot (List.mem_append_right _ ?_)
    rwa [ht, Option.isSome_some, if_pos rfl, hb.classify_eq (Site.characters_of_text? ht)]
  constructor
  case origin_eq => rfl
  case properties_eq =>
    refine ⟨(site.tree.spots site.scope).map (Site.own s), ?_, ?_⟩
    · rw [List.forall₂_map_right_iff, List.forall₂_same]
      exact fun spot _ => spot.draws_own s
    · have hproperties := properties_eq_firsts (t.environment o s) site.scope site.tree
      rwa [← List.flatMap_def, List.map_flatMap]
  case nodup_names => exact nodup_map_name_properties (t.environment o s) site.scope site.tree
  case reference_once =>
    intro spot hspot key hkey
    exact existsUnique_token hs (own_subset_drafts hspot (Site.property_mem_own hkey))
  case placeholder_once =>
    intro spot hspot text ht body hbody
    refine existsUnique_token hs (htext hspot ht (.placeholders ⟨body, hbody⟩)
      (a := ⟨.placeholder body, body, .string, .text ""⟩) ?_)
    exact List.mem_filterMap.mpr ⟨_, hbody, rfl⟩
  case variable_once =>
    intro spot hspot text ht hp hr id label hv hl
    exact existsUnique_token hs (htext hspot ht (.variable hp hr hv hl) List.mem_cons_self)

namespace Scene

/-- The root component has the same properties however the scene is divided, and the properties
of every component are collected from the nodes of its whole subtree. -/
theorem properties_flat {scene : Scene} (hb : scene.Built) {r : NodeId} (hr : scene.root = some r)
    (s : Snapshot) :
    (∀ o o' : Options, ∃ main rest main' rest',
      scene.components s o = .ok (main :: rest) ∧ scene.components s o' = .ok (main' :: rest') ∧
        main.origin = r ∧ main'.origin = r ∧ main.properties = main'.properties) ∧
    ∀ o : Options, ∃ t, scene.rootTree? = some t ∧ scene.components s o = .ok (t.components o s) ∧
      ∀ d ∈ t.components o s, ∃ site ∈ t.spots .empty,
        (site.tree.spots site.scope).map (·.tree.id) = scene.descendants scene.size d.origin ∧
          d.Collects s (t.plan o s) site := by
  obtain ⟨t, ht, hsh, hid⟩ := hb.forest.rootTree?_shows hr
  constructor
  · intro o o'
    exact ⟨_, _, _, _, components_of_rootTree? ht s o, components_of_rootTree? ht s o', hid, hid,
      Tree.properties_plan_eq o o' s t⟩
  · intro o
    refine ⟨t, ht, components_of_rootTree? ht s o, fun d hd => ?_⟩
    obtain ⟨site, hs, rfl⟩ := List.mem_map.mp hd
    refine ⟨site, Tree.sites_subset_spots o t hs, ?_, Tree.collects_of_mem_sites hs⟩
    rw [Tree.map_id_spots]
    have hsite := Tree.shows_of_mem_sites hsh hs
    exact (hsite.descendants_eq hb.forest (Nat.le_refl _)).symm

theorem cardPage_properties_flat :
    cardPage.Built ∧ cardPage.root = some 0 ∧
      (∃ main rest main' rest',
        cardPage.components (Snapshot.empty.withVariable "v" "Price") ⟨.single, .flat, .inline⟩ =
            .ok (main :: rest) ∧
          cardPage.components (Snapshot.empty.withVariable "v" "Price") ⟨.multi, .flat, .inline⟩ =
            .ok (main' :: rest') ∧
          main.origin = 0 ∧ main'.origin = 0 ∧ main.properties = main'.properties) ∧
      ∃ t, cardPage.rootTree? = some t ∧
        cardPage.components (Snapshot.empty.withVariable "v" "Price") ⟨.multi, .flat, .inline⟩ =
          .ok (t.components ⟨.multi, .flat, .inline⟩ (Snapshot.empty.withVariable "v" "Price")) ∧
        ∀ d ∈ t.components ⟨.multi, .flat, .inline⟩ (Snapshot.empty.withVariable "v" "Price"),
          ∃ site ∈ t.spots .empty,
            (site.tree.spots site.scope).map (·.tree.id) =
                cardPage.descendants cardPage.size d.origin ∧
              d.Collects (Snapshot.empty.withVariable "v" "Price")
                (t.plan ⟨.multi, .flat, .inline⟩ (Snapshot.empty.withVariable "v" "Price")) site := by
  have h := properties_flat cardPage_built (r := 0) rfl (Snapshot.empty.withVariable "v" "Price")
  exact ⟨cardPage_built, rfl, h.1 _ _, h.2 _⟩

end Scene

end DesignComponents
