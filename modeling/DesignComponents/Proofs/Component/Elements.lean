import DesignComponents.Proofs.Component.Sites

/-! Elements of blueprints. Every element is a blueprint of its own; a boundary among them stands
for a site below and passes on the properties of that site, and a text among them is one whose
drafts belong to the component. -/

namespace DesignComponents

namespace Blueprint

@[elab_as_elim, induction_eliminator]
theorem induct {motive : Blueprint → Prop}
    (boundary : ∀ origin tag bindings, motive (.boundary origin tag bindings))
    (text : ∀ origin styleClass element node, motive (.text origin styleClass element node))
    (label : ∀ origin styleClass name, motive (.label origin styleClass name))
    (container : ∀ origin styleClass children, (∀ b ∈ children, motive b) →
      motive (.container origin styleClass children)) : ∀ b, motive b
  | .boundary origin tag bindings => boundary origin tag bindings
  | .text origin styleClass element node => text origin styleClass element node
  | .label origin styleClass name => label origin styleClass name
  | .container origin styleClass children =>
    container origin styleClass children fun b _ => induct boundary text label container b

mutual

/-- All elements, each before those inside of it. -/
def elements : Blueprint → List Blueprint
  | boundary origin tag bindings => [boundary origin tag bindings]
  | text origin styleClass element node => [text origin styleClass element node]
  | label origin styleClass name => [label origin styleClass name]
  | container origin styleClass children =>
    container origin styleClass children :: elementsAll children

def elementsAll : List Blueprint → List Blueprint
  | [] => []
  | b :: bs => elements b ++ elementsAll bs

end

theorem elementsAll_eq (bs : List Blueprint) : elementsAll bs = bs.flatMap elements := by
  induction bs with
  | nil => rfl
  | cons b bs ih => rw [elementsAll, ih, List.flatMap_cons]

theorem self_mem_elements (b : Blueprint) : b ∈ b.elements := by
  cases b <;> simp [elements]

theorem mem_elements_container {b : Blueprint} {origin : NodeId} {styleClass : String}
    {children : List Blueprint} :
    b ∈ (container origin styleClass children).elements ↔
      b = container origin styleClass children ∨ ∃ c ∈ children, b ∈ c.elements := by
  rw [elements, elementsAll_eq, List.mem_cons, List.mem_flatMap]

end Blueprint

namespace Tree

variable {e : Environment}

/-- The element of a child: the child itself, or a reference to the component it starts. -/
def childBlueprint (e : Environment) (scope : Scope) (t : Tree) : Blueprint :=
  if e.options.isBoundary t.node then
    .boundary t.id (e.tagOf t.id) ((t.properties e scope).map Token.name)
  else t.blueprint e scope

theorem blueprintAll_eq (scope : Scope) (ts : List Tree) :
    blueprintAll e scope ts = ts.map (childBlueprint e scope) := by
  induction ts with
  | nil => rfl
  | cons t ts ih =>
    rw [blueprintAll, ih, List.map_cons]
    rfl

theorem blueprint_branch (scope : Scope) (id : NodeId) (node : Node) (children : List Tree) :
    (branch id node children).blueprint e scope =
      .container id (e.tagOf id) (children.map (childBlueprint e (scope.enter node))) := by
  rw [blueprint, blueprintAll_eq]

theorem blueprint_leaf (scope : Scope) (id : NodeId) (node : Node) :
    (leaf id node).blueprint e scope =
      if node.characters.isSome then .text id (e.tagOf id) e.options.textElement.tag node
      else .label id (e.tagOf id) node.name := rfl

/-- Elements of a branch lie in the children that are no boundaries, or refer to boundaries. -/
theorem mem_elements_branch {scope : Scope} {id : NodeId} {node : Node} {children : List Tree}
    {b : Blueprint} :
    b ∈ ((branch id node children).blueprint e scope).elements ↔
      b = (branch id node children).blueprint e scope ∨
        ∃ c ∈ children, b ∈ (c.childBlueprint e (scope.enter node)).elements := by
  rw [blueprint_branch, Blueprint.mem_elements_container]
  simp only [List.mem_map, exists_exists_and_eq_and]

theorem mem_elements_childBlueprint {scope : Scope} {t : Tree} {b : Blueprint}
    (h : b ∈ (t.childBlueprint e scope).elements) :
    (e.options.isBoundary t.node = true ∧
        b = .boundary t.id (e.tagOf t.id) ((t.properties e scope).map Token.name)) ∨
      b ∈ (t.blueprint e scope).elements := by
  rw [childBlueprint] at h
  split_ifs at h with hb
  · rw [Blueprint.elements, List.mem_singleton] at h
    exact .inl ⟨hb, h⟩
  · exact .inr h

/-- A boundary stands for a site below and passes on exactly that site's properties. -/
theorem exists_site_of_boundary {scope : Scope} {t : Tree} {i : NodeId} {tag : String}
    {bindings : List String}
    (h : Blueprint.boundary i tag bindings ∈ (t.blueprint e scope).elements) :
    ∃ site ∈ t.nestedSites e.options scope, site.tree.id = i ∧ e.tagOf i = tag ∧
      (site.tree.properties e site.scope).map Token.name = bindings := by
  induction t generalizing scope with
  | leaf id node =>
    rw [blueprint_leaf] at h
    split_ifs at h <;> simp [Blueprint.elements] at h
  | branch id node children ih =>
    rcases mem_elements_branch.mp h with h | ⟨c, hc, h⟩
    · rw [blueprint_branch] at h
      cases h
    · rcases mem_elements_childBlueprint h with ⟨hb, h⟩ | h
      · cases h
        exact ⟨⟨scope.enter node, c⟩, mem_nestedSites_branch.mpr ⟨c, hc, .inl ⟨hb, rfl⟩⟩,
          rfl, rfl, rfl⟩
      · obtain ⟨site, hs, hsite⟩ := ih c hc h
        exact ⟨site, mem_nestedSites_branch.mpr ⟨c, hc, .inr hs⟩, hsite⟩

/-- A text comes from a node without children. What holds for that node and is passed from children
to their parents holds for every tree with the text. -/
theorem induct_of_text {i : NodeId} {styleClass element : String} {n : Node}
    {motive : Scope → Tree → Prop}
    (leaf : ∀ scope, n.characters.isSome = true → element = e.options.textElement.tag →
      motive scope (.leaf i n))
    (branch : ∀ scope id node children, ∀ c ∈ children, motive (scope.enter node) c →
      motive scope (.branch id node children))
    {scope : Scope} {t : Tree}
    (h : Blueprint.text i styleClass element n ∈ (t.blueprint e scope).elements) :
    motive scope t := by
  induction t generalizing scope with
  | leaf id node =>
    rw [blueprint_leaf] at h
    split_ifs at h with hn
    · rw [Blueprint.elements, List.mem_singleton] at h
      cases h
      exact leaf scope hn rfl
    · simp [Blueprint.elements] at h
  | branch id node children ih =>
    rcases mem_elements_branch.mp h with h | ⟨c, hc, h⟩
    · rw [blueprint_branch] at h
      cases h
    · rcases mem_elements_childBlueprint h with ⟨-, h⟩ | h
      · cases h
      · exact branch scope id node children c hc (ih c hc h)

/-- Texts show nodes of the tree. -/
theorem mem_preorder_of_text {scope : Scope} {t : Tree} {i : NodeId} {styleClass element : String}
    {n : Node} (h : Blueprint.text i styleClass element n ∈ (t.blueprint e scope).elements) :
    (i, n) ∈ t.preorder := by
  refine induct_of_text (motive := fun _ u => (i, n) ∈ u.preorder) ?_ ?_ h
  · exact fun _ _ _ => List.mem_singleton_self _
  · exact fun _ id node _ c hc hn => preorder_subset_branch id node hc hn

theorem element_eq_of_text {scope : Scope} {t : Tree} {i : NodeId} {styleClass element : String}
    {n : Node} (h : Blueprint.text i styleClass element n ∈ (t.blueprint e scope).elements) :
    element = e.options.textElement.tag :=
  induct_of_text (motive := fun _ _ => element = e.options.textElement.tag)
    (fun _ _ he => he) (fun _ _ _ _ _ _ he => he) h

/-- What a text is bound to is among the drafts of its component. -/
theorem exists_drafts_of_text {scope : Scope} {t : Tree} {i : NodeId} {styleClass element : String}
    {n : Node} (h : Blueprint.text i styleClass element n ∈ (t.blueprint e scope).elements)
    (s : Snapshot) :
    ∃ inner, Draft.ofBinding inner (Binding.classify s n) ⊆ t.drafts s scope := by
  refine induct_of_text (motive := fun scope u =>
    ∃ inner, Draft.ofBinding inner (Binding.classify s n) ⊆ u.drafts s scope) ?_ ?_ h
  · intro scope hn _
    refine ⟨scope.enter n, fun d hd => ?_⟩
    rw [drafts_leaf, Draft.ofNode, hn]
    exact List.mem_append_right _ hd
  · rintro scope id node children c hc ⟨inner, hi⟩
    refine ⟨inner, fun d hd => ?_⟩
    rw [drafts_branch]
    exact List.mem_append_right _ (List.mem_flatMap.mpr ⟨c, hc, hi hd⟩)

end Tree

end DesignComponents
