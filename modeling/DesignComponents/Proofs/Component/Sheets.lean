import DesignComponents.Proofs.Component.Distinctness

/-! Style sheets and the elements that they style. An element of a component has the tag of its
node as its class, and the sheet of the component has a rule for that class. An isolated sheet
has the rules of these elements and no others, in their order; a flat sheet has the rules of the
whole subtree. -/

namespace DesignComponents

namespace Blueprint

/-- The node and the class of an element. References to nested components have no class. -/
def classed? : Blueprint → Option (NodeId × String)
  | boundary _ _ _ => none
  | text origin styleClass _ _ => some (origin, styleClass)
  | label origin styleClass _ => some (origin, styleClass)
  | container origin styleClass _ => some (origin, styleClass)

/-- The elements with a class, in depth-first order. -/
def classed (b : Blueprint) : List (NodeId × String) := b.elements.filterMap classed?

/-- The classes of the elements, in depth-first order. -/
def classes (b : Blueprint) : List String := b.classed.map Prod.snd

theorem classed_boundary (origin : NodeId) (tag : String) (bindings : List String) :
    (boundary origin tag bindings).classed = [] := rfl

theorem classed_container (origin : NodeId) (styleClass : String) (children : List Blueprint) :
    (container origin styleClass children).classed =
      (origin, styleClass) :: children.flatMap classed := by
  have hhead : classed? (container origin styleClass children) = some (origin, styleClass) := rfl
  rw [classed, elements, elementsAll_eq, List.filterMap_cons_some hhead, List.filterMap_flatMap]
  rfl

end Blueprint

namespace Tree

variable {e : Environment}

/-- The elements of a component show the nodes that it owns, each with its tag as the class. -/
theorem classed_blueprint (scope : Scope) (t : Tree) :
    (t.blueprint e scope).classed = (t.owned e.options).map fun n => (n.1, e.tagOf n.1) := by
  induction t generalizing scope with
  | leaf id node =>
    rw [blueprint_leaf]
    split_ifs <;> rfl
  | branch id node children ih =>
    rw [blueprint_branch, Blueprint.classed_container, owned_branch, List.flatMap_map,
      List.map_cons, List.map_flatMap]
    refine congrArg ((id, e.tagOf id) :: ·) (List.flatMap_congr fun c hc => ?_)
    rw [childBlueprint, childOwned]
    split_ifs
    · exact Blueprint.classed_boundary _ _ _
    · exact ih c hc _

theorem classed_root (site : Site) :
    (site.describe e).root.classed = (site.tree.owned e.options).map fun n => (n.1, e.tagOf n.1) :=
  classed_blueprint site.scope site.tree

theorem classes_root (site : Site) :
    (site.describe e).root.classes = (site.tree.owned e.options).map fun n => e.tagOf n.1 := by
  rw [Blueprint.classes, classed_root, List.map_map]
  rfl

theorem selectors_eq (e : Environment) (t : Tree) :
    (t.styles e).map StyleRule.selector = (t.styled e.options).map fun n => e.tagOf n.1 := by
  rw [styles, List.map_map]
  rfl

end Tree

/-- The sheet of a component fits its elements. -/
structure Descriptor.FitsSheet (d : Descriptor) (scene : Scene) (s : Snapshot) (o : Options)
    (names : Identifier.Table) : Prop where
  isolated : o.stylePolicy = .isolated → d.styles.map StyleRule.selector = d.root.classes
  flat : o.stylePolicy = .flat →
    d.styles.map StyleRule.selector = (scene.descendants scene.size d.origin).map names.tagOf
  /-- Whatever the policy is, every class has exactly one rule. -/
  class_once : ∀ c ∈ d.root.classes, (d.styles.map StyleRule.selector).count c = 1
  selector_eq : ∀ rule ∈ d.styles,
    names.lookup .tag (.node rule.origin) = some rule.selector
  /-- A rule has the declarations that were captured for its node, in their order. -/
  declarations_of_some : ∀ rule ∈ d.styles, ∀ css, s.style? rule.origin = some css →
    rule.declarations.entries = css.entries
  declarations_of_none : ∀ rule ∈ d.styles, s.style? rule.origin = none →
    rule.declarations.entries = []

namespace Tree

variable {o : Options} {s : Snapshot} {t : Tree}

theorem declarations_of_mem_styles {e : Environment} {rule : StyleRule} (h : rule ∈ t.styles e) :
    rule.declarations = (e.snapshot.style? rule.origin).getD ∅ := by
  obtain ⟨n, -, rfl⟩ := List.mem_map.mp h
  rfl

theorem fitsSheet_of_mem_sites {scene : Scene} (hf : scene.Forest) (hsh : scene.Shows t)
    {site : Site} (hs : site ∈ t.sites o) :
    (site.describe (t.environment o s)).FitsSheet scene s o (t.plan o s) := by
  set e := t.environment o s
  have hsite := shows_of_mem_sites hsh hs
  have hselectors := selectors_eq e site.tree
  constructor
  case isolated =>
    intro hp
    exact hselectors.trans
      ((congrArg _ (styled_isolated hp site.tree)).trans (classes_root site).symm)
  case flat =>
    intro hp
    have horder : scene.descendants scene.size site.tree.id = site.tree.preorder.map Prod.fst :=
      hsite.descendants_eq hf (Nat.le_refl _)
    show (site.tree.styles e).map StyleRule.selector =
      (scene.descendants scene.size site.tree.id).map (t.plan o s).tagOf
    rw [hselectors, horder, List.map_map]
    exact congrArg _ (styled_flat hp site.tree)
  case class_once =>
    intro c hc
    rw [classes_root] at hc
    refine List.count_eq_one_of_mem (nodup_selectors hs (hsite.nodup_ids hf)) ?_
    exact hselectors ▸ List.map_subset _ (owned_subset_styled o site.tree) hc
  case selector_eq =>
    intro rule hrule
    obtain ⟨n, hn, rfl⟩ := List.mem_map.mp hrule
    have hmem := mem_ids_of_mem_sites hs (styled_subset_preorder o _ hn)
    exact Identifier.Table.lookup_nameOf (tag_mem_keys_plan hmem)
  case declarations_of_some =>
    intro rule hrule css hcss
    rw [declarations_of_mem_styles hrule, show e.snapshot = s from rfl, hcss, Option.getD_some]
  case declarations_of_none =>
    intro rule hrule hnone
    rw [declarations_of_mem_styles hrule, show e.snapshot = s from rfl, hnone]
    rfl

end Tree

namespace Scene

/-- In every component of a scene the classes of the elements are those of the sheet. -/
theorem components_fit_sheets {scene : Scene} (hb : scene.Built) {r : NodeId}
    (hr : scene.root = some r) (s : Snapshot) (o : Options) :
    ∃ t, scene.rootTree? = some t ∧ scene.components s o = .ok (t.components o s) ∧
      ∀ d ∈ t.components o s, d.FitsSheet scene s o (t.plan o s) := by
  have hf := hb.forest
  obtain ⟨t, ht, hsh, -⟩ := hf.rootTree?_shows hr
  refine ⟨t, ht, components_of_rootTree? ht s o, fun d hd => ?_⟩
  obtain ⟨site, hs, rfl⟩ := List.mem_map.mp hd
  exact Tree.fitsSheet_of_mem_sites hf hsh hs

theorem cardPage_components_fit_sheets :
    let o : Options := ⟨.multi, .flat, .block⟩
    let s := Snapshot.empty.withStyle 2 (.ofList [("color", "red"), ("margin", "0")])
    cardPage.Built ∧ cardPage.root = some 0 ∧
      ∃ t, cardPage.rootTree? = some t ∧ cardPage.components s o = .ok (t.components o s) ∧
        ∀ d ∈ t.components o s, d.FitsSheet cardPage s o (t.plan o s) :=
  ⟨cardPage_built, rfl, components_fit_sheets cardPage_built (r := 0) rfl _ _⟩

end Scene

end DesignComponents
