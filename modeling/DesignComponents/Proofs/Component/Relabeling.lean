import DesignComponents.Proofs.Component.Elements
import DesignComponents.Proofs.Component.Ownership
import DesignComponents.Proofs.Identifier.Relabeling
import DesignComponents.Proofs.Scene.Relabeling

/-! Components of scenes whose nodes are at other places. Every stage of a compilation commutes
with moving the nodes, so the components of the moved tree are the components of the tree, with
their origins moved and all names and texts as they were. -/

namespace DesignComponents

open Identifier (Request Table)

/-- What an element is, with its origin at another place. -/
def Signal.relabel (f : NodeId → NodeId) (g : Signal) : Signal := { g with origin := f g.origin }

def Event.relabel (f : NodeId → NodeId) (v : Event) : Event := { v with origin := f v.origin }

def StyleRule.relabel (f : NodeId → NodeId) (r : StyleRule) : StyleRule :=
  { r with origin := f r.origin }

def Site.relabel (f : NodeId → NodeId) (site : Site) : Site :=
  { site with tree := site.tree.relabel f }

namespace Blueprint

mutual

def relabel (f : NodeId → NodeId) : Blueprint → Blueprint
  | boundary origin tag bindings => boundary (f origin) tag bindings
  | text origin styleClass element node => text (f origin) styleClass element node
  | label origin styleClass name => label (f origin) styleClass name
  | container origin styleClass children => container (f origin) styleClass (relabelAll f children)

def relabelAll (f : NodeId → NodeId) : List Blueprint → List Blueprint
  | [] => []
  | b :: bs => relabel f b :: relabelAll f bs

end

theorem relabelAll_eq (f : NodeId → NodeId) (bs : List Blueprint) :
    relabelAll f bs = bs.map (relabel f) := by
  induction bs with
  | nil => rfl
  | cons b bs ih => rw [relabelAll, ih, List.map_cons]

theorem relabel_container (f : NodeId → NodeId) (origin : NodeId) (styleClass : String)
    (children : List Blueprint) :
    (container origin styleClass children).relabel f =
      container (f origin) styleClass (children.map (relabel f)) := by
  rw [relabel, relabelAll_eq]

end Blueprint

def Descriptor.relabel (f : NodeId → NodeId) (d : Descriptor) : Descriptor :=
  { d with
    styles := d.styles.map (StyleRule.relabel f)
    events := d.events.map (Event.relabel f)
    root := d.root.relabel f
    origin := f d.origin }

/-! ### Snapshots -/

/-- The second snapshot knows the variables that the first one knows, by the same names. -/
def Snapshot.SameVariables (s s' : Snapshot) : Prop := ∀ v, s'.variableName? v = s.variableName? v

/-- Of the variables only the one that the node is bound to matters. -/
theorem Binding.classify_congr {s s' : Snapshot} {n : Node}
    (h : ∀ v, n.boundVariable = some v → s'.variableName? v = s.variableName? v) :
    classify s' n = classify s n := by
  have hnamed : named? s' n = named? s n := by
    unfold named?
    cases hv : n.boundVariable with
    | none => rfl
    | some v => simp [h v hv]
  simp only [classify, hnamed]

theorem Draft.ofNode_congr {s s' : Snapshot} {n : Node}
    (h : Binding.classify s' n = Binding.classify s n) (scope : Scope) (isLeaf : Bool) :
    ofNode s' scope isLeaf n = ofNode s scope isLeaf n := by
  rw [ofNode, h, ofNode]

namespace Tree

/-- With both snapshots the texts of a tree are bound to the same. -/
def SameTexts (t : Tree) (s s' : Snapshot) : Prop :=
  ∀ n ∈ t.preorder, Binding.classify s' n.2 = Binding.classify s n.2

namespace SameTexts

variable {s s' : Snapshot}

theorem of_sameVariables (hs : s.SameVariables s') (t : Tree) : t.SameTexts s s' :=
  fun _ _ => Binding.classify_congr fun v _ => hs v

theorem node {t : Tree} (h : t.SameTexts s s') :
    Binding.classify s' t.node = Binding.classify s t.node := by
  cases t with
  | branch id node children => exact h (id, node) (by simp)
  | leaf id node => exact h (id, node) (by simp)

theorem child {id : NodeId} {node : Node} {children : List Tree}
    (h : (branch id node children).SameTexts s s') {c : Tree} (hc : c ∈ children) :
    c.SameTexts s s' :=
  fun n hn => h n (preorder_subset_branch id node hc hn)

theorem of_mem_sites {t : Tree} (h : t.SameTexts s s') {o : Options} {site : Site}
    (hs : site ∈ t.sites o) : site.tree.SameTexts s s' :=
  fun n hn => h n (preorder_subset_of_mem_sites hs hn)

end SameTexts

end Tree

/-! ### Requests -/

theorem Source.entity_relabel (f : NodeId → NodeId) (a : Source) : a.entity.relabel f = a.entity := by
  cases a <;> rfl

theorem Draft.request_relabel (f : NodeId → NodeId) (d : Draft) : d.request.relabel f = d.request := by
  rw [request, Request.relabel, Source.entity_relabel]

variable {f : NodeId → NodeId}

theorem Draft.named_relabel (hf : Function.Injective f) (names : Table) (d : Draft) :
    d.named (names.relabel f) = d.named names := by
  have h := Table.nameOf_relabel hf names .member d.source.entity
  rw [Source.entity_relabel] at h
  rw [named, h, named]

theorem Signal.request_relabel (hf : Function.Injective f) (names : Table) (g : Signal) :
    (g.relabel f).request (names.relabel f) = (g.request names).relabel f := by
  simp only [request, relabel, Table.tagOf_relabel hf]
  rfl

theorem Signal.named_relabel (hf : Function.Injective f) (names : Table) (g : Signal) :
    (g.relabel f).named (names.relabel f) = (g.named names).relabel f := by
  have h := Table.nameOf_relabel hf names .member (.event g.origin g.trigger)
  simp only [named, relabel, Table.tagOf_relabel hf, Event.relabel]
  exact congrArg (fun name => Event.mk _ name _ _) h

namespace Tree

/-! ### Walks -/

theorem drafts_relabel {s s' : Snapshot} {t : Tree} (hs : t.SameTexts s s') (scope : Scope) :
    (t.relabel f).drafts s' scope = t.drafts s scope := by
  induction t generalizing scope with
  | leaf id node => exact Draft.ofNode_congr hs.node _ true
  | branch id node children ih =>
    rw [relabel_branch, drafts_branch, drafts_branch, Draft.ofNode_congr (n := node) hs.node,
      List.flatMap_map]
    exact congrArg (_ ++ ·) (List.flatMap_congr fun c hc => ih c hc (hs.child hc) _)

theorem owned_relabel (o : Options) (t : Tree) :
    (t.relabel f).owned o = (t.owned o).map (move f) := by
  induction t with
  | leaf id node => rfl
  | branch id node children ih =>
    rw [relabel_branch, owned_branch, owned_branch, List.map_cons, List.map_flatMap,
      List.flatMap_map]
    refine congrArg ((f id, node) :: ·) (List.flatMap_congr fun c hc => ?_)
    rw [childOwned, node_relabel, childOwned]
    split_ifs
    · rfl
    · exact ih c hc

theorem signals_relabel (o : Options) (t : Tree) :
    (t.relabel f).signals o = (t.signals o).map (Signal.relabel f) := by
  rw [signals, owned_relabel, List.flatMap_map, signals, List.map_flatMap]
  refine List.flatMap_congr fun n _ => ?_
  rw [List.map_map]
  rfl

theorem nestedSites_relabel (o : Options) (scope : Scope) (t : Tree) :
    (t.relabel f).nestedSites o scope = (t.nestedSites o scope).map (Site.relabel f) := by
  induction t generalizing scope with
  | leaf id node => rfl
  | branch id node children ih =>
    rw [relabel_branch, nestedSites_branch, nestedSites_branch, List.map_flatMap, List.flatMap_map]
    refine List.flatMap_congr fun c hc => ?_
    rw [childSites, node_relabel, childSites, ih c hc]
    split_ifs <;> rfl

theorem sites_relabel (o : Options) (t : Tree) :
    (t.relabel f).sites o = (t.sites o).map (Site.relabel f) := by
  rw [sites, nestedSites_relabel, sites, List.map_cons]
  rfl

theorem nestedStarts_relabel (o : Options) (t : Tree) :
    (t.relabel f).nestedStarts o = (t.nestedStarts o).map (move f) := by
  induction t with
  | leaf id node => rfl
  | branch id node children ih =>
    rw [relabel_branch, nestedStarts_branch, nestedStarts_branch, List.map_flatMap,
      List.flatMap_map]
    refine List.flatMap_congr fun c hc => ?_
    rw [childStarts, node_relabel, id_relabel, childStarts, ih c hc, List.map_append]
    split_ifs <;> rfl

theorem starts_relabel (o : Options) (t : Tree) :
    (t.relabel f).starts o = (t.starts o).map (move f) := by
  rw [starts, nestedStarts_relabel, node_relabel, id_relabel, starts, List.map_append]
  rfl

theorem styled_relabel (o : Options) (t : Tree) :
    (t.relabel f).styled o = (t.styled o).map (move f) := by
  unfold styled
  cases o.stylePolicy with
  | flat => exact preorder_relabel f t
  | isolated => exact owned_relabel o t

/-! ### Names -/

theorem planTags_relabel (hf : Function.Injective f) (t : Tree) (names : Table) :
    (t.relabel f).planTags (names.relabel f) = (t.planTags names).relabel f := by
  rw [planTags, preorder_relabel, planTags, ← Table.assignAll_relabel hf, List.map_map, List.map_map]
  rfl

theorem memberRequests_relabel (hf : Function.Injective f) {s s' : Snapshot} {site : Site}
    (hs : site.tree.SameTexts s s') (o : Options) (names : Table) :
    (site.relabel f).memberRequests o s' (names.relabel f) =
      (site.memberRequests o s names).map (Request.relabel f) := by
  have hdrafts : (site.relabel f).tree.drafts s' (site.relabel f).scope =
      site.tree.drafts s site.scope := drafts_relabel hs site.scope
  have hsignals : (site.relabel f).tree.signals o = (site.tree.signals o).map (Signal.relabel f) :=
    signals_relabel o site.tree
  rw [Site.memberRequests, hdrafts, hsignals, Site.memberRequests, List.map_append, List.map_map,
    List.map_map, List.map_map]
  congr 1
  · exact List.map_congr_left fun d _ => (d.request_relabel f).symm
  · exact List.map_congr_left fun g _ => g.request_relabel hf names

theorem plan_relabel (hf : Function.Injective f) {s s' : Snapshot} {t : Tree}
    (hs : t.SameTexts s s') (o : Options) :
    (t.relabel f).plan o s' = (t.plan o s).relabel f := by
  have htags : (t.relabel f).planTags .empty = (t.planTags .empty).relabel f :=
    planTags_relabel hf t .empty
  have hmembers : ((t.relabel f).sites o).flatMap
        (·.memberRequests o s' ((t.relabel f).planTags .empty)) =
      ((t.sites o).flatMap (·.memberRequests o s (t.planTags .empty))).map (Request.relabel f) := by
    rw [sites_relabel, List.flatMap_map, List.map_flatMap, htags]
    exact List.flatMap_congr fun site hm => memberRequests_relabel hf (hs.of_mem_sites hm) o _
  have hclasses : ((t.relabel f).starts o).map classRequest =
      ((t.starts o).map classRequest).map (Request.relabel f) := by
    rw [starts_relabel, List.map_map, List.map_map]
    rfl
  simp only [plan]
  rw [hmembers, hclasses, htags, Table.assignAll_relabel hf, Table.assignAll_relabel hf]

/-! ### Parts of components -/

variable {o : Options} {s s' : Snapshot} {names : Table}

theorem properties_relabel (hf : Function.Injective f) {t : Tree} (hs : t.SameTexts s s')
    (scope : Scope) :
    (t.relabel f).properties ⟨o, s', names.relabel f⟩ scope = t.properties ⟨o, s, names⟩ scope := by
  rw [properties_eq, properties_eq, drafts_relabel hs]
  congr 2
  exact List.map_congr_left fun d _ => d.named_relabel hf names

theorem events_relabel (hf : Function.Injective f) (t : Tree) :
    (t.relabel f).events ⟨o, s', names.relabel f⟩ =
      (t.events ⟨o, s, names⟩).map (Event.relabel f) := by
  rw [events, signals_relabel, List.map_map, events, List.map_map]
  exact List.map_congr_left fun g _ => g.named_relabel hf names

theorem styles_relabel (hf : Function.Injective f) {t : Tree}
    (hstyle : ∀ i ∈ t.ids, s'.style (f i) = s.style i) :
    (t.relabel f).styles ⟨o, s', names.relabel f⟩ =
      (t.styles ⟨o, s, names⟩).map (StyleRule.relabel f) := by
  rw [styles, styled_relabel, List.map_map, styles, List.map_map]
  refine List.map_congr_left fun n hn => ?_
  have hi : n.1 ∈ t.ids := List.mem_map_of_mem (styled_subset_preorder o t hn)
  have htag : (names.relabel f).tagOf (f n.1) = names.tagOf n.1 := Table.tagOf_relabel hf names n.1
  exact congrArg₂ (fun tag css => StyleRule.mk tag css (f n.1)) htag (hstyle n.1 hi)

theorem blueprint_relabel (hf : Function.Injective f) {t : Tree} (hs : t.SameTexts s s')
    (scope : Scope) :
    (t.relabel f).blueprint ⟨o, s', names.relabel f⟩ scope =
      (t.blueprint ⟨o, s, names⟩ scope).relabel f := by
  have htag : ∀ i, (⟨o, s', names.relabel f⟩ : Environment).tagOf (f i) =
      (⟨o, s, names⟩ : Environment).tagOf i := Table.tagOf_relabel hf names
  induction t generalizing scope with
  | leaf id node =>
    rw [relabel_leaf, blueprint_leaf, blueprint_leaf, htag]
    split_ifs <;> rfl
  | branch id node children ih =>
    rw [relabel_branch, blueprint_branch, blueprint_branch, htag, Blueprint.relabel_container,
      List.map_map, List.map_map]
    congr 1
    refine List.map_congr_left fun c hc => ?_
    rw [Function.comp_apply, Function.comp_apply, childBlueprint, childBlueprint, node_relabel,
      id_relabel, htag, properties_relabel hf (hs.child hc), ih c hc (hs.child hc)]
    split_ifs <;> rfl

theorem describe_relabel (hf : Function.Injective f) {site : Site}
    (hs : site.tree.SameTexts s s')
    (hstyle : ∀ i ∈ site.tree.ids, s'.style (f i) = s.style i) :
    (site.relabel f).describe ⟨o, s', names.relabel f⟩ =
      (site.describe ⟨o, s, names⟩).relabel f := by
  have hid : (site.relabel f).tree.id = f site.tree.id := id_relabel f site.tree
  simp only [Site.describe, Descriptor.relabel, hid, Descriptor.mk.injEq]
  refine ⟨?_, ?_, ?_, ?_, ?_, ?_, trivial⟩
  · exact Table.tagOf_relabel hf names site.tree.id
  · exact Table.nameOf_relabel hf names .className (.node site.tree.id)
  · exact styles_relabel hf hstyle
  · exact properties_relabel hf hs site.scope
  · exact events_relabel hf site.tree
  · exact blueprint_relabel hf hs site.scope

/-- The components of a moved tree are those of the tree, moved. -/
theorem components_relabel (hf : Function.Injective f) {t : Tree} (hs : t.SameTexts s s')
    (hstyle : ∀ i ∈ t.ids, s'.style (f i) = s.style i) :
    (t.relabel f).components o s' = (t.components o s).map (Descriptor.relabel f) := by
  rw [components, sites_relabel, List.map_map, components, List.map_map]
  refine List.map_congr_left fun site hsite => ?_
  have hsub : site.tree.ids ⊆ t.ids := List.map_subset _ (preorder_subset_of_mem_sites hsite)
  rw [Function.comp_apply, environment, plan_relabel hf hs]
  exact describe_relabel hf (hs.of_mem_sites hsite) fun i hi => hstyle i (hsub hi)

end Tree

end DesignComponents
