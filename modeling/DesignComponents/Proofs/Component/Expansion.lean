import DesignComponents.Proofs.Component.Elements
import DesignComponents.Proofs.Component.Naming

/-! Putting components back together. When every reference to a component is replaced by the
blueprint of that component, the components of a divided scene give exactly the blueprint of
the one component of the undivided scene. -/

namespace DesignComponents

namespace Blueprint

/-- Replacing references by the blueprints of the components that start at their places, and so
on inside of these. -/
inductive Expands (ds : List Descriptor) : Blueprint → Blueprint → Prop
  | boundary {origin : NodeId} {tag : String} {bindings : List String} {d : Descriptor}
      {b : Blueprint} (hd : d ∈ ds) (ho : d.origin = origin) (h : Expands ds d.root b) :
      Expands ds (.boundary origin tag bindings) b
  | text (origin : NodeId) (styleClass element : String) (node : Node) :
      Expands ds (.text origin styleClass element node) (.text origin styleClass element node)
  | label (origin : NodeId) (styleClass name : String) :
      Expands ds (.label origin styleClass name) (.label origin styleClass name)
  | container (origin : NodeId) (styleClass : String) {bs bs' : List Blueprint}
      (hl : bs.length = bs'.length)
      (h : ∀ i (hi : i < bs.length) (hi' : i < bs'.length), Expands ds bs[i] bs'[i]) :
      Expands ds (.container origin styleClass bs) (.container origin styleClass bs')

/-- With one component at each place there is only one way to expand. -/
theorem Expands.unique {ds : List Descriptor} (hu : (ds.map Descriptor.origin).Nodup)
    {b c c' : Blueprint} (h : Expands ds b c) (h' : Expands ds b c') : c = c' := by
  induction h generalizing c' with
  | boundary hd ho _ ih =>
    cases h' with
    | boundary hd' ho' h' =>
      have he := List.inj_on_of_nodup_map hu hd hd' (ho.trans ho'.symm)
      exact ih (he ▸ h')
  | text origin styleClass element node => cases h'; rfl
  | label origin styleClass name => cases h'; rfl
  | container origin styleClass hl h ih =>
    cases h' with
    | container _ _ hl' h' =>
      congr 1
      refine List.ext_getElem (hl.symm.trans hl') fun i hi hi' => ?_
      exact ih i (hl ▸ hi) hi (h' i (hl ▸ hi) hi')

end Blueprint

namespace Tree

open Blueprint (Expands)

theorem isBoundary_single {o : Options} (h : o.mode = .single) (n : Node) :
    o.isBoundary n = false := by
  simp [Options.isBoundary, h]

theorem nestedSites_single {o : Options} (h : o.mode = .single) (scope : Scope) (t : Tree) :
    t.nestedSites o scope = [] := by
  induction t generalizing scope with
  | leaf id node => rfl
  | branch id node children ih =>
    rw [nestedSites_branch, List.flatMap_eq_nil_iff]
    intro c hc
    rw [childSites, isBoundary_single h, if_neg Bool.false_ne_true]
    exact ih c hc _

theorem sites_single {o : Options} (h : o.mode = .single) (t : Tree) :
    t.sites o = [⟨.empty, t⟩] := by
  rw [sites, nestedSites_single h]

variable {e e' : Environment} {ds : List Descriptor}

theorem childBlueprint_single (h : e.options.mode = .single) (scope : Scope) (t : Tree) :
    t.childBlueprint e scope = t.blueprint e scope := by
  rw [childBlueprint, isBoundary_single h, if_neg Bool.false_ne_true]

/-- A blueprint with references expands to the one without, if tags and text elements are the
same and every component below is there. -/
theorem expands_blueprint (htag : ∀ i, e.tagOf i = e'.tagOf i)
    (htext : e.options.textElement = e'.options.textElement) (hmode : e'.options.mode = .single)
    {scope : Scope} {t : Tree} (hs : ∀ site ∈ t.nestedSites e.options scope, site.describe e ∈ ds) :
    Expands ds (t.blueprint e scope) (t.blueprint e' scope) := by
  induction t generalizing scope with
  | leaf id node =>
    rw [blueprint_leaf, blueprint_leaf, htag, htext]
    split_ifs
    · exact .text _ _ _ _
    · exact .label _ _ _
  | branch id node children ih =>
    rw [blueprint_branch, blueprint_branch, htag]
    refine .container _ _ (by rw [List.length_map, List.length_map]) fun i hi hi' => ?_
    rw [List.getElem_map, List.getElem_map]
    rw [List.length_map] at hi
    set c := children[i]
    have hc : c ∈ children := List.getElem_mem hi
    have hbelow : Expands ds (c.blueprint e (scope.enter node)) (c.blueprint e' (scope.enter node)) :=
      ih c hc fun site hsite => hs site (mem_nestedSites_branch.mpr ⟨c, hc, .inr hsite⟩)
    rw [childBlueprint_single hmode, childBlueprint]
    split_ifs with hb
    · -- the component at the boundary is one of those that are there
      have hd := hs ⟨scope.enter node, c⟩ (mem_nestedSites_branch.mpr ⟨c, hc, .inl ⟨hb, rfl⟩⟩)
      exact .boundary hd rfl hbelow
    · exact hbelow

end Tree

namespace Scene

open Blueprint (Expands)

/-- The components of a divided scene, put together again, are the undivided component. -/
theorem multi_expands_to_single {scene : Scene} (hb : scene.Built) {r : NodeId}
    (hr : scene.root = some r) (s : Snapshot) (p p' : StylePolicy) (x : TextElement) :
    ∃ single main rest,
      scene.components s ⟨.single, p, x⟩ = .ok [single] ∧
        scene.components s ⟨.multi, p', x⟩ = .ok (main :: rest) ∧
        single.origin = r ∧ main.origin = r ∧
        ((main :: rest).map Descriptor.origin).Nodup ∧
        ∀ b, Expands (main :: rest) main.root b ↔ b = single.root := by
  obtain ⟨t, ht, hsh, hid⟩ := hb.forest.rootTree?_shows hr
  have hcomponents := components_of_rootTree? ht s
  set one : Options := ⟨.single, p, x⟩
  set many : Options := ⟨.multi, p', x⟩
  have hmany := Tree.nodup_origins_components (o := many) (s := s) (hsh.nodup_ids hb.forest)
  have htag : ∀ i, (t.environment many s).tagOf i = (t.environment one s).tagOf i := fun i =>
    (Tree.tagOf_plan i).trans (Tree.tagOf_plan i).symm
  have hexp : Expands (t.components many s) (t.blueprint (t.environment many s) .empty)
      (t.blueprint (t.environment one s) .empty) :=
    Tree.expands_blueprint htag rfl rfl fun site hs =>
      List.mem_map_of_mem (Tree.mem_sites.mpr (.inr hs))
  refine ⟨Site.describe (t.environment one s) ⟨.empty, t⟩,
    Site.describe (t.environment many s) ⟨.empty, t⟩,
    (t.nestedSites many .empty).map (Site.describe (t.environment many s)), ?_, hcomponents many,
    hid, hid, hmany, fun b => ⟨fun h => ?_, ?_⟩⟩
  · rw [hcomponents one, Tree.components, Tree.sites_single rfl]
    rfl
  · exact Expands.unique hmany h hexp
  · rintro rfl
    exact hexp

theorem cardPage_multi_expands_to_single :
    cardPage.Built ∧ cardPage.root = some 0 ∧
      ∃ single main rest,
        cardPage.components .empty ⟨.single, .flat, .inline⟩ = .ok [single] ∧
          cardPage.components .empty ⟨.multi, .isolated, .inline⟩ = .ok (main :: rest) ∧
          single.origin = 0 ∧ main.origin = 0 ∧
          ((main :: rest).map Descriptor.origin).Nodup ∧
          ∀ b, Expands (main :: rest) main.root b ↔ b = single.root :=
  ⟨cardPage_built, rfl, multi_expands_to_single cardPage_built rfl .empty .flat .isolated .inline⟩

end Scene

end DesignComponents
