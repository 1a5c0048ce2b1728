import DesignComponents.Proofs.Component.Distinctness
import DesignComponents.Proofs.Component.Visits

/-! How components are discovered. A builder walks the tree once. It reserves a slot when it meets
a component, names the members, goes on inside, where it meets further components, and fills
the slot when it comes back; a reference to a component reads its bindings from the filled slot.
All slots are full at the end and hold the components of the tree, in the order in which the
builder met them. -/

namespace DesignComponents

open Identifier (Entity Namespace Request Table)

/-! ### The builder -/

/-- What the builder has so far: the names given, and a slot for each component it has met. -/
structure Progress where
  names : Table
  slots : List (Option Descriptor)

/-- The bindings of the component in a slot. -/
def Progress.bindings (p : Progress) (slot : Nat) : List String :=
  match p.slots[slot]? with
  | some (some d) => d.propertyNames
  | _ => []

theorem Progress.bindings_eq {p q : Progress} {d : Descriptor} {rest : List (Option Descriptor)}
    (h : q.slots = p.slots ++ some d :: rest) : q.bindings p.slots.length = d.propertyNames := by
  rw [bindings, h, List.getElem?_append_right (Nat.le_refl _), Nat.sub_self]
  rfl

namespace Site

/-- Reserves a slot for the component that starts here and names its members. -/
def enter (o : Options) (s : Snapshot) (site : Site) (p : Progress) : Progress :=
  ⟨p.names.assignAll (site.memberRequests o s p.names), p.slots ++ [none]⟩

/-- The component that starts here, with what it declares named by one table, the component itself
by another. -/
def assemble (o : Options) (s : Snapshot) (site : Site) (members names : Table) (root : Blueprint) :
    Descriptor :=
  let e : Environment := ⟨o, s, members⟩
  { tag := names.tagOf site.tree.id
    className := names.nameOf .className (.node site.tree.id)
    styles := site.tree.styles e
    properties := site.tree.properties e site.scope
    events := site.tree.events e
    root := root
    origin := site.tree.id }

/-- Names the class of the component and fills its slot. -/
def leave (o : Options) (s : Snapshot) (site : Site) (slot : Nat) (members : Table)
    (built : Blueprint × Progress) : Progress :=
  let names := built.2.names.assign (Tree.classRequest (site.tree.id, site.tree.node))
  ⟨names, built.2.slots.set slot (some (site.assemble o s members names built.1))⟩

/-- Builds a component, given how its inside is built. -/
def build (o : Options) (s : Snapshot) (site : Site) (inside : Progress → Blueprint × Progress)
    (p : Progress) : Progress :=
  let entered := site.enter o s p
  site.leave o s p.slots.length entered.names (inside entered)

end Site

namespace Tree

mutual

/-- Builds the blueprint of the component that starts here. -/
def build (o : Options) (s : Snapshot) (scope : Scope) : Tree → Progress → Blueprint × Progress
  | branch id node children, p =>
    let (bs, q) := buildAll o s (scope.enter node) children p
    (.container id (p.names.tagOf id) bs, q)
  | leaf id node, p =>
    (if node.characters.isSome then .text id (p.names.tagOf id) o.textElement.tag node
      else .label id (p.names.tagOf id) node.name, p)

def buildAll (o : Options) (s : Snapshot) (scope : Scope) :
    List Tree → Progress → List Blueprint × Progress
  | [], p => ([], p)
  | t :: ts, p =>
    let (b, q) :=
      if o.isBoundary t.node then
        let q := Site.build o s ⟨scope, t⟩ (build o s scope t) p
        (.boundary t.id (p.names.tagOf t.id) (q.bindings p.slots.length), q)
      else build o s scope t p
    let (bs, r) := buildAll o s scope ts q
    (b :: bs, r)

end

/-- A whole run, which starts with the tags of all nodes. -/
def discover (o : Options) (s : Snapshot) (t : Tree) : Progress :=
  Site.build o s ⟨.empty, t⟩ (t.build o s .empty) ⟨t.planTags .empty, []⟩

/-- Builds the element of a child; at a boundary a component and a reference to it. -/
def buildChild (o : Options) (s : Snapshot) (scope : Scope) (t : Tree) (p : Progress) :
    Blueprint × Progress :=
  if o.isBoundary t.node then
    let q := Site.build o s ⟨scope, t⟩ (t.build o s scope) p
    (.boundary t.id (p.names.tagOf t.id) (q.bindings p.slots.length), q)
  else t.build o s scope p

theorem buildAll_cons (o : Options) (s : Snapshot) (scope : Scope) (t : Tree) (ts : List Tree)
    (p : Progress) :
    buildAll o s scope (t :: ts) p =
      let child := t.buildChild o s scope p
      let rest := buildAll o s scope ts child.2
      (child.1 :: rest.1, rest.2) := rfl

end Tree

/-! ### Names along a run -/

namespace Identifier.Table

/-- A table with all names of another, and perhaps more. -/
def Extends (t u : Table) : Prop :=
  ∀ space entity name, u.lookup space entity = some name → t.lookup space entity = some name

theorem Extends.of_assignAll {t u : Table} {rs : List Request} (h : t.Extends (u.assignAll rs)) :
    t.Extends u :=
  fun space entity name hn => h space entity name (lookup_assignAll_of_some hn rs)

theorem Extends.nameOf_eq {t u : Table} (h : t.Extends u) {space : Namespace} {entity : Entity}
    (hk : (space, entity) ∈ u.keys) : u.nameOf space entity = t.nameOf space entity :=
  (Table.nameOf_eq (h space entity _ (lookup_nameOf hk))).symm

end Identifier.Table

/-- All tags are the given ones. -/
def Progress.Tagged (p : Progress) (tags : Table) : Prop :=
  ∀ i, p.names.tagOf i = tags.tagOf i

section Names

variable {o : Options} {s : Snapshot} {tags : Table} {p : Progress}

theorem Site.memberRequests_congr {names : Table} (h : ∀ i, names.tagOf i = tags.tagOf i)
    (site : Site) : site.memberRequests o s names = site.memberRequests o s tags := by
  rw [memberRequests, memberRequests]
  congr 1
  refine List.map_congr_left fun g _ => ?_
  rw [Signal.request, Signal.request, h]

/-- No visit changes a tag. -/
theorem Progress.Tagged.of_names (h : p.Tagged tags) {q : Progress} {vs : List Visit}
    (hq : q.names = p.names.assignAll (vs.flatMap (Visit.requests o s tags))) : q.Tagged tags := by
  intro i
  have hne : ∀ r ∈ vs.flatMap (Visit.requests o s tags), r.space ≠ .tag :=
    fun r => Visit.space_ne_tag_of_mem_requests
  rw [← h i, hq, Table.tagOf, Table.nameOf, Table.lookup_assignAll_of_ne _ hne]
  rfl

theorem Site.names_enter (h : p.Tagged tags) (site : Site) :
    (site.enter o s p).names = p.names.assignAll (site.memberRequests o s tags) :=
  congrArg p.names.assignAll (site.memberRequests_congr h)

theorem Site.tagged_enter (h : p.Tagged tags) (site : Site) : (site.enter o s p).Tagged tags := by
  have hnames : (site.enter o s p).names =
      p.names.assignAll ([Visit.opening site].flatMap (Visit.requests o s tags)) := by
    rw [site.names_enter h, List.flatMap_singleton]
    rfl
  exact h.of_names hnames

namespace Tree

/-- Inside of a component, names are given visit by visit. -/
def NamesInside (o : Options) (s : Snapshot) (tags : Table) (scope : Scope) (t : Tree) : Prop :=
  ∀ p : Progress, p.Tagged tags → (t.build o s scope p).2.names =
    p.names.assignAll ((t.nestedVisits o scope).flatMap (Visit.requests o s tags))

theorem NamesInside.site {scope : Scope} {t : Tree} (ht : t.NamesInside o s tags scope)
    (h : p.Tagged tags) :
    (Site.build o s ⟨scope, t⟩ (t.build o s scope) p).names =
      p.names.assignAll ((t.visits o scope).flatMap (Visit.requests o s tags)) := by
  rw [visits, List.flatMap_append, List.flatMap_cons, List.flatMap_singleton,
    Table.assignAll_append, Table.assignAll_append, Visit.requests, ← Site.names_enter h,
    ← ht _ (Site.tagged_enter h _)]
  rfl

theorem NamesInside.child {scope : Scope} {t : Tree} (ht : t.NamesInside o s tags scope)
    (h : p.Tagged tags) :
    (t.buildChild o s scope p).2.names =
      p.names.assignAll ((t.childVisits o scope).flatMap (Visit.requests o s tags)) := by
  rw [buildChild, childVisits]
  split_ifs
  · exact ht.site h
  · exact ht p h

theorem names_buildAll {scope : Scope} {ts : List Tree}
    (hts : ∀ t ∈ ts, t.NamesInside o s tags scope) (h : p.Tagged tags) :
    (buildAll o s scope ts p).2.names =
      p.names.assignAll ((ts.flatMap (childVisits o scope)).flatMap (Visit.requests o s tags)) := by
  induction ts generalizing p with
  | nil => rfl
  | cons t ts ih =>
    have hchild := (hts t List.mem_cons_self).child h
    rw [buildAll_cons, List.flatMap_cons, List.flatMap_append, Table.assignAll_append, ← hchild]
    exact ih (fun t' ht' => hts t' (List.mem_cons_of_mem _ ht')) (h.of_names hchild)

theorem namesInside (scope : Scope) (t : Tree) : t.NamesInside o s tags scope := by
  induction t generalizing scope with
  | leaf id node => exact fun p _ => rfl
  | branch id node children ih =>
    intro p h
    rw [nestedVisits_branch, ← names_buildAll (fun c hc => ih c hc _) h]
    rfl

end Tree

end Names

/-! ### Slots along a run -/

section Slots

variable {e : Environment} {p : Progress}

namespace Tree

/-- Events that have their names already have those of every table with more names. -/
theorem events_of_extends {names : Table} {t : Tree} (h : e.names.Extends names)
    (htag : ∀ i, names.tagOf i = e.tagOf i)
    (hk : ∀ g ∈ t.signals e.options,
      (Namespace.member, Entity.event g.origin g.trigger) ∈ names.keys) :
    t.events ⟨e.options, e.snapshot, names⟩ = t.events e := by
  refine List.map_congr_left fun g hg => ?_
  rw [Signal.named, Signal.named, h.nameOf_eq (hk g hg), htag]
  rfl

theorem styles_of_tagOf {names : Table} (htag : ∀ i, names.tagOf i = e.tagOf i) (t : Tree) :
    t.styles ⟨e.options, e.snapshot, names⟩ = t.styles e := by
  refine List.map_congr_left fun n _ => ?_
  rw [← htag]
  rfl

end Tree

/-- A run gives a value and fills one new slot for each of some sites. -/
structure Fills (e : Environment) {α : Type} (p : Progress) (run : α × Progress) (value : α)
    (sites : List Site) : Prop where
  value_eq : run.1 = value
  slots_eq : run.2.slots = p.slots ++ sites.map fun site => some (site.describe e)

namespace Site

theorem member_mem_keys_enter (site : Site) {r : Request}
    (hr : r ∈ site.memberRequests e.options e.snapshot p.names) :
    r.key ∈ (site.enter e.options e.snapshot p).names.keys :=
  Table.mem_keys_assignAll.mpr (.inr (List.mem_map_of_mem hr))

/-- Names that are there when they are read are the names of the whole run. -/
theorem assemble_eq_describe {site : Site} {names : Table} {root : Blueprint}
    (htag : ∀ i, (site.enter e.options e.snapshot p).names.tagOf i = e.tagOf i)
    (hext : e.names.Extends (site.enter e.options e.snapshot p).names)
    (htag' : ∀ i, names.tagOf i = e.tagOf i) (hext' : e.names.Extends names)
    (hclass : (Namespace.className, Entity.node site.tree.id) ∈ names.keys)
    (hroot : root = site.tree.blueprint e site.scope) :
    site.assemble e.options e.snapshot (site.enter e.options e.snapshot p).names names root =
      site.describe e := by
  set members := (site.enter e.options e.snapshot p).names
  have hproperties : site.tree.properties ⟨e.options, e.snapshot, members⟩ site.scope =
      site.tree.properties e site.scope :=
    Tree.properties_congr fun d hd => hext.nameOf_eq
      (site.member_mem_keys_enter (List.mem_append_left _ (List.mem_map_of_mem hd)))
  have hevents : site.tree.events ⟨e.options, e.snapshot, members⟩ = site.tree.events e :=
    Tree.events_of_extends hext htag fun g hg =>
      site.member_mem_keys_enter (List.mem_append_right _ (List.mem_map_of_mem hg))
  rw [assemble, describe, htag', hext'.nameOf_eq hclass, hroot, hproperties, hevents,
    Tree.styles_of_tagOf htag]

end Site

namespace Tree

/-- Inside of a component, slots are filled site by site, if the final names extend those that the
run has so far. -/
def FillsInside (e : Environment) (scope : Scope) (t : Tree) : Prop :=
  ∀ p : Progress, p.Tagged e.names →
    e.names.Extends (t.build e.options e.snapshot scope p).2.names →
      Fills e p (t.build e.options e.snapshot scope p) (t.blueprint e scope)
        (t.nestedSites e.options scope)

theorem FillsInside.site {scope : Scope} {t : Tree} (ht : t.FillsInside e scope)
    (h : p.Tagged e.names) {q : Progress}
    (hq : q = Site.build e.options e.snapshot ⟨scope, t⟩ (t.build e.options e.snapshot scope) p)
    (hext : e.names.Extends q.names) :
    q.slots = p.slots ++
      (⟨scope, t⟩ :: t.nestedSites e.options scope).map fun site => some (site.describe e) := by
  set site : Site := ⟨scope, t⟩
  set entered := site.enter e.options e.snapshot p
  set built := t.build e.options e.snapshot scope entered
  have hnames : q.names = built.2.names.assignAll [classRequest (t.id, t.node)] := hq ▸ rfl
  -- the final names extend those at each stage before
  have htag : entered.Tagged e.names := Site.tagged_enter h site
  have hbuilt : e.names.Extends built.2.names := (hnames ▸ hext).of_assignAll
  have hentered : e.names.Extends entered.names :=
    (namesInside scope t entered htag ▸ hbuilt).of_assignAll
  obtain ⟨hroot, hslots⟩ := ht entered htag hbuilt
  have hq' : q.Tagged e.names := h.of_names (hq ▸ (namesInside scope t).site h)
  have hclass : (Namespace.className, Entity.node t.id) ∈ q.names.keys :=
    hnames ▸ Table.mem_keys_assignAll.mpr (.inr (List.mem_singleton_self _))
  have hd := Site.assemble_eq_describe htag hentered hq' hext hclass hroot
  have hset : q.slots = built.2.slots.set p.slots.length
      (some (site.assemble e.options e.snapshot entered.names q.names built.1)) := hq ▸ rfl
  have hfirst : entered.slots = p.slots ++ [none] := rfl
  rw [hset, hd, hslots, hfirst, List.append_assoc, List.set_append_right _ _ (Nat.le_refl _),
    Nat.sub_self]
  rfl

theorem FillsInside.child {scope : Scope} {t : Tree} (ht : t.FillsInside e scope)
    (h : p.Tagged e.names)
    (hext : e.names.Extends (t.buildChild e.options e.snapshot scope p).2.names) :
    Fills e p (t.buildChild e.options e.snapshot scope p) (t.childBlueprint e scope)
      (t.childSites e.options scope) := by
  rw [buildChild] at hext ⊢
  rw [childBlueprint, childSites]
  split_ifs at hext ⊢
  · have hslots := ht.site h rfl hext
    constructor
    case value_eq =>
      exact congrArg₂ (Blueprint.boundary t.id) (h t.id) (Progress.bindings_eq hslots)
    case slots_eq => exact hslots
  · exact ht p h hext

theorem fills_buildAll {scope : Scope} {ts : List Tree} (hts : ∀ t ∈ ts, t.FillsInside e scope)
    (h : p.Tagged e.names)
    (hext : e.names.Extends (buildAll e.options e.snapshot scope ts p).2.names) :
    Fills e p (buildAll e.options e.snapshot scope ts p) (ts.map (childBlueprint e scope))
      (ts.flatMap (childSites e.options scope)) := by
  induction ts generalizing p with
  | nil => exact ⟨rfl, (List.append_nil _).symm⟩
  | cons t ts ih =>
    rw [buildAll_cons] at hext ⊢
    set child := t.buildChild e.options e.snapshot scope p
    have hinside : ∀ t' : Tree, t'.NamesInside e.options e.snapshot e.names scope :=
      namesInside scope
    have htag : child.2.Tagged e.names := h.of_names ((hinside t).child h)
    have hrest := names_buildAll (fun t' (_ : t' ∈ ts) => hinside t') htag
    obtain ⟨hvalue, hslots⟩ := (hts t List.mem_cons_self).child h (hrest ▸ hext).of_assignAll
    obtain ⟨hvalues, hslots'⟩ := ih (fun t' ht' => hts t' (List.mem_cons_of_mem _ ht')) htag hext
    constructor
    case value_eq => rw [List.map_cons, ← hvalue, ← hvalues]
    case slots_eq => rw [List.flatMap_cons, List.map_append, ← List.append_assoc, ← hslots, hslots']

theorem fillsInside (scope : Scope) (t : Tree) : t.FillsInside e scope := by
  induction t generalizing scope with
  | leaf id node =>
    intro p h _
    constructor
    case value_eq =>
      rw [blueprint_leaf, build, h]
      rfl
    case slots_eq => exact (List.append_nil _).symm
  | branch id node children ih =>
    intro p h hext
    obtain ⟨hvalue, hslots⟩ := fills_buildAll (fun c hc => ih c hc (scope.enter node)) h hext
    constructor
    case value_eq =>
      rw [blueprint_branch, ← hvalue, Environment.tagOf, ← h]
      rfl
    case slots_eq =>
      rw [nestedSites_branch, ← hslots]
      rfl

end Tree

end Slots

/-! ### The whole run -/

namespace Tree

variable {o : Options} {s : Snapshot} {t : Tree}

/-- A run gives the names of the plan. -/
theorem lookup_discover (space : Namespace) (entity : Entity) :
    (t.discover o s).names.lookup space entity = (t.plan o s).lookup space entity := by
  rw [← lookup_visits, discover, (namesInside .empty t).site fun _ => rfl]

/-- All slots are filled, in the order in which they were reserved. -/
theorem slots_discover (o : Options) (s : Snapshot) (t : Tree) :
    (t.discover o s).slots = (t.components o s).map some := by
  have hext : (t.plan o s).Extends (t.discover o s).names :=
    fun space entity name hn => (lookup_discover space entity).symm.trans hn
  have h := (fillsInside (e := t.environment o s) .empty t).site
    (p := ⟨t.planTags .empty, []⟩) (fun i => (tagOf_plan i).symm) rfl hext
  rw [components, List.map_map]
  exact h

theorem preorder_eq_cons (t : Tree) : t.preorder = (t.id, t.node) :: t.preorder.tail := by
  cases t with
  | leaf id node => rfl
  | branch id node children =>
    rw [preorder_branch]
    rfl

/-- Sites inside a tree are the boundaries among the nodes below its own, in depth-first order. -/
theorem map_nestedSites (o : Options) (scope : Scope) (t : Tree) :
    (t.nestedSites o scope).map (fun site => (site.tree.id, site.tree.node)) =
      t.preorder.tail.filter fun n => o.isBoundary n.2 := by
  induction t generalizing scope with
  | leaf id node => rfl
  | branch id node children ih =>
    rw [nestedSites_branch, preorder_branch, List.tail_cons, List.map_flatMap, List.filter_flatMap]
    refine List.flatMap_congr fun c hc => ?_
    rw [childSites, preorder_eq_cons c, List.filter_cons, ← ih c hc (scope.enter node)]
    split_ifs <;> rfl

end Tree

/-- A node below the root that starts a component when the scene is divided. -/
def Scene.nests (scene : Scene) (o : Options) (r i : NodeId) : Bool :=
  i ≠ r && o.mode = .multi &&
    (scene.node? i).any fun node => node.kind ∈ [.component, .componentInstance, .frame]

theorem NodeKind.startsComponent_eq (k : NodeKind) :
    k.startsComponent = decide (k ∈ [.component, .componentInstance, .frame]) := by
  cases k <;> rfl

namespace Scene

theorem Shows.map_origin_components {scene : Scene} {t : Tree} (h : scene.Shows t)
    (hf : scene.Forest) (o : Options) (s : Snapshot) :
    (t.components o s).map Descriptor.origin =
      t.id :: (scene.descendants scene.size t.id).filter (scene.nests o t.id) := by
  have hcons : t.ids = t.id :: t.preorder.tail.map Prod.fst :=
    congrArg (List.map Prod.fst) t.preorder_eq_cons
  have hroot : scene.nests o t.id t.id = false := by simp [nests]
  have hnodup := List.nodup_cons.mp (hcons ▸ h.nodup_ids hf)
  have hnests : ∀ n ∈ t.preorder.tail, scene.nests o t.id n.1 = o.isBoundary n.2 := by
    intro n hn
    have hne : n.1 ≠ t.id := fun he => hnodup.1 (he ▸ List.mem_map_of_mem hn)
    have hnode := h.node?_of_mem (List.mem_of_mem_tail hn)
    simp [nests, hne, hnode, Options.isBoundary, NodeKind.startsComponent_eq]
  have hsites := congrArg (List.map Prod.fst) (t.map_nestedSites o .empty)
  rw [List.map_map] at hsites
  rw [h.descendants_eq hf (Nat.le_refl _), hcons, List.filter_cons_of_neg (by simp [hroot]),
    List.filter_map, Tree.components, List.map_map, Tree.sites, List.map_cons]
  refine congrArg (t.id :: ·) (hsites.trans (congrArg _ ?_))
  exact List.filter_congr fun n hn => (hnests n hn).symm

end Scene

/-- The components of a scene are discovered in depth-first order and all returned. -/
structure Discovered (scene : Scene) (s : Snapshot) (o : Options) (t : Tree)
    (ds : List Descriptor) : Prop where
  /-- The run of the builder fills every slot that it reserves. -/
  slots_eq : (t.discover o s).slots = ds.map some
  origins_eq : ds.map Descriptor.origin =
    t.id :: (scene.descendants scene.size t.id).filter (scene.nests o t.id)
  nodup_origins : (ds.map Descriptor.origin).Nodup
  tag_eq : ∀ d ∈ ds, (t.discover o s).names.lookup .tag (.node d.origin) = some d.tag
  /-- Every reference has the tag of one component, the one that starts at its place. -/
  boundary_once : ∀ d ∈ ds, ∀ i tag bindings, .boundary i tag bindings ∈ d.root.elements →
    (∃ d' ∈ ds, d'.origin = i ∧ d'.tag = tag) ∧ (ds.map Descriptor.tag).count tag = 1

namespace Tree

variable {o : Options} {s : Snapshot} {t : Tree}

theorem exists_component_of_boundary {d : Descriptor} (hd : d ∈ t.components o s) {i : NodeId}
    {tag : String} {bindings : List String} (h : .boundary i tag bindings ∈ d.root.elements) :
    ∃ d' ∈ t.components o s, d'.origin = i ∧ d'.tag = tag := by
  obtain ⟨site, hs, rfl⟩ := List.mem_map.mp hd
  obtain ⟨inner, hi, rfl, htag, -⟩ := exists_site_of_boundary h
  exact ⟨_, List.mem_map_of_mem (mem_sites_of_nested hs hi), rfl, htag⟩

end Tree

namespace Scene

/-- The components of a scene are discovered in the order of its nodes, and none is lost. -/
theorem components_discovered {scene : Scene} (hb : scene.Built) {r : NodeId}
    (hr : scene.root = some r) (s : Snapshot) (o : Options) :
    ∃ t ds, scene.rootTree? = some t ∧ t.id = r ∧ scene.components s o = .ok ds ∧
      Discovered scene s o t ds := by
  have hf := hb.forest
  obtain ⟨t, ht, hsh, hid⟩ := hf.rootTree?_shows hr
  have hnodup := hsh.nodup_ids hf
  refine ⟨t, t.components o s, ht, hid, components_of_rootTree? ht s o, ?_⟩
  constructor
  case slots_eq => exact t.slots_discover o s
  case origins_eq => exact hsh.map_origin_components hf o s
  case nodup_origins => exact Tree.nodup_origins_components hnodup
  case tag_eq =>
    intro d hd
    obtain ⟨site, hs, rfl⟩ := List.mem_map.mp hd
    rw [Tree.lookup_discover]
    exact Table.lookup_nameOf (Tree.tag_mem_keys_plan (Tree.id_mem_ids_of_mem_sites hs))
  case boundary_once =>
    intro d hd i tag bindings h
    obtain ⟨d', hd', hi, rfl⟩ := Tree.exists_component_of_boundary hd h
    exact ⟨⟨d', hd', hi, rfl⟩,
      List.count_eq_one_of_mem (Tree.nodup_tags hnodup) (List.mem_map_of_mem hd')⟩

theorem cardPage_components_discovered :
    cardPage.Built ∧ cardPage.root = some 0 ∧
      ∃ t ds, cardPage.rootTree? = some t ∧ t.id = 0 ∧
        cardPage.components .empty ⟨.multi, .isolated, .inline⟩ = .ok ds ∧
        Discovered cardPage .empty ⟨.multi, .isolated, .inline⟩ t ds :=
  ⟨cardPage_built, rfl, components_discovered cardPage_built rfl .empty _⟩

end Scene

end DesignComponents
