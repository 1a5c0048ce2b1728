import DesignComponents.Payload.Generate
import DesignComponents.Proofs.Component.Relabeling
import DesignComponents.Proofs.Markup.Members
import Mathlib.Tactic.IntervalCases

/-! Payloads of scenes whose nodes are at other places. A payload shows names and texts but no
places, so scenes with the same tree have the same payloads, in whatever order their nodes were
added and whatever else they hold. -/

namespace DesignComponents

open Identifier (Table)

variable {f : NodeId → NodeId} {s s' : Snapshot}

theorem Piece.bound_relabel (hf : Function.Injective f) (names : Table) (a : Source)
    (fallback : String) : bound (names.relabel f) a.entity fallback = bound names a.entity fallback := by
  have h := Table.lookup_relabel hf names .member a.entity
  rw [Source.entity_relabel] at h
  rw [bound, h, bound]

theorem Piece.ofSegment_relabel (hf : Function.Injective f) (names : Table) :
    ofSegment (names.relabel f) = ofSegment names := by
  funext segment
  cases segment with
  | literal text => rfl
  | placeholder body => exact bound_relabel hf names (.placeholder body) _

theorem Piece.ofText_relabel (hf : Function.Injective f) {n : Node}
    (hn : Binding.classify s' n = Binding.classify s n) (names : Table) :
    ofText s' (names.relabel f) n = ofText s names n := by
  have hproperty := fun key => bound_relabel hf names (.property key)
  have hvariable := fun id => bound_relabel hf names (.variable id)
  simp only [ofText, hn, ofSegment_relabel hf, hproperty, hvariable]

namespace Descriptor

theorem eventsOf_relabel (hf : Function.Injective f) (d : Descriptor) (i : NodeId) :
    (d.relabel f).eventsOf (f i) = (d.eventsOf i).map (Event.relabel f) := by
  rw [eventsOf, relabel, List.filter_map, eventsOf]
  refine congrArg (List.map (Event.relabel f)) (List.filter_congr fun v _ => ?_)
  exact decide_eq_decide.mpr hf.eq_iff

theorem listeners_relabel (events : List Event) :
    listeners (events.map (Event.relabel f)) = listeners events := by
  rw [listeners, List.map_map]
  rfl

/-- The texts of a blueprint are all that its markup takes from elsewhere. -/
theorem markupOf_relabel (hf : Function.Injective f) (d : Descriptor)
    {textOf textOf' : Node → List Piece} (inButton : Bool) {b : Blueprint}
    (h : ∀ i styleClass element n, Blueprint.text i styleClass element n ∈ b.elements →
      textOf' n = textOf n) :
    (d.relabel f).markupOf textOf' inButton (b.relabel f) = d.markupOf textOf inButton b := by
  induction b generalizing inButton with
  | boundary origin tag bindings => rfl
  | text origin styleClass element node =>
    have hn : textOf' node = textOf node :=
      h origin styleClass element node (by simp [Blueprint.elements])
    simp only [Blueprint.relabel, markupOf, eventsOf_relabel hf, listeners_relabel,
      List.isEmpty_map, hn]
  | label origin styleClass name =>
    simp only [Blueprint.relabel, markupOf, eventsOf_relabel hf, listeners_relabel,
      List.isEmpty_map]
  | container origin styleClass children ih =>
    simp only [Blueprint.relabel_container, markupOf, markupOfAll_eq, eventsOf_relabel hf,
      listeners_relabel, List.isEmpty_map, List.map_map]
    congr 1
    refine List.map_congr_left fun b hb => ih b hb _ fun i c e n hn => h i c e n ?_
    exact Blueprint.mem_elements_container.mpr (.inr ⟨b, hb, hn⟩)

theorem render_relabel (hf : Function.Injective f) {d : Descriptor}
    (h : ∀ i styleClass element n, Blueprint.text i styleClass element n ∈ d.root.elements →
      Binding.classify s' n = Binding.classify s n) (names : Table) :
    (d.relabel f).render s' (names.relabel f) = d.render s names := by
  rw [render, render]
  refine congrArg Markup.print (markupOf_relabel hf d false ?_)
  exact fun i c e n hn => Piece.ofText_relabel hf (h i c e n hn) names

theorem ofDescriptor_relabel (d : Descriptor) (markup : String) :
    Payload.Component.ofDescriptor (d.relabel f) markup =
      Payload.Component.ofDescriptor d markup := by
  simp only [Payload.Component.ofDescriptor, relabel, List.map_map]
  rfl

end Descriptor

/-- Moving the nodes of a tree changes nothing that a payload is written from, and of a snapshot
only the styles of the nodes and what their texts are bound to matters. -/
theorem Tree.rendered_relabel_of_sameTexts (hf : Function.Injective f) {t : Tree}
    (hs : t.SameTexts s s') (hstyle : ∀ i ∈ t.ids, s'.style (f i) = s.style i) (o : Options) :
    (t.relabel f).rendered o s' = t.rendered o s := by
  simp only [rendered]
  rw [components_relabel hf hs hstyle, plan_relabel hf hs, List.map_map]
  refine List.map_congr_left fun d hd => ?_
  obtain ⟨site, hsite, rfl⟩ := List.mem_map.mp hd
  rw [Function.comp_apply, Descriptor.ofDescriptor_relabel, Descriptor.render_relabel hf]
  intro i styleClass element n hn
  have hmem : (i, n) ∈ site.tree.preorder := mem_preorder_of_text hn
  exact hs.of_mem_sites hsite (i, n) hmem

theorem Tree.rendered_relabel (hf : Function.Injective f) (hs : s.SameVariables s') {t : Tree}
    (hstyle : ∀ i ∈ t.ids, s'.style (f i) = s.style i) (o : Options) :
    (t.relabel f).rendered o s' = t.rendered o s :=
  rendered_relabel_of_sameTexts hf (.of_sameVariables hs t) hstyle o

theorem Tree.rendered_congr {t : Tree} (hs : t.SameTexts s s')
    (hstyle : ∀ i ∈ t.ids, s'.style i = s.style i) (o : Options) :
    t.rendered o s' = t.rendered o s := by
  have h := rendered_relabel_of_sameTexts (f := fun i => i) Function.injective_id hs hstyle o
  rwa [relabel_self] at h

namespace Scene

theorem compile_of_rootTree? {scene : Scene} {t : Tree} (h : scene.rootTree? = some t)
    (s : Snapshot) (p : Preferences) :
    scene.compile s p =
      .ok (p.variants.map (Payload.ofComponents · (t.rendered p.options s))) := by
  rw [compile, rootTree, h]
  rfl

theorem compile_of_root_eq_none {scene : Scene} (h : scene.root = none) (s : Snapshot)
    (p : Preferences) : scene.compile s p = .error .noRoot := by
  rw [compile, rootTree, rootTree?, h]
  rfl

/-- The payloads of a scene depend on the tree below its root, not on the places of the nodes:
scenes with the same tree have the same payloads if the host answers the same about them. -/
theorem compile_relabel {scene scene' : Scene} (hb : scene.Built) (hb' : scene'.Built)
    (h : Relabels f scene scene')
    (hstyle : ∀ r i, scene.root = some r → scene.Reaches r i → s'.style (f i) = s.style i)
    (hs : s.SameVariables s') (p : Preferences) : scene'.compile s' p = scene.compile s p := by
  cases hr : scene.root with
  | none =>
    have hr' : scene'.root = none := by rw [h.root_eq, hr, Option.map_none]
    rw [compile_of_root_eq_none hr, compile_of_root_eq_none hr']
  | some r =>
    obtain ⟨g, t, hg, ht, ht', hsh, hid, heq⟩ := h.rootTree? hb.forest hb'.forest hr
    have hstyle' : ∀ i ∈ t.ids, s'.style (g i) = s.style i := by
      intro i hi
      rw [← heq i hi]
      exact hstyle r i hr (hid ▸ hsh.mem_ids.mp hi)
    rw [compile_of_rootTree? ht, compile_of_rootTree? ht', Tree.rendered_relabel hg hs hstyle']

/-- The card page, grown in another order after a root that cannot be reached any more. -/
def regrownCardPage : Scene :=
  let draft := empty.addRoot (.ofNode (.plain .frame "Draft"))
  let page := draft.addRoot (.ofNode (.plain .frame "Page"))
  let card := page.addChild 1
    (.ofNode { Node.plain .componentInstance "Card" with reactions := [.on .click] })
  let footer := card.addChild 1 (.ofNode { Node.plain .text "Footer" with
    characters := some "-", boundVariable := some "v" })
  let title := footer.addChild 2
    (.ofNode { Node.plain .text "Title" with characters := some "Hi \x7b\x7bname\x7d\x7d" })
  title.addChild 2 (.ofNode { Node.plain .frame "Badge" with
    reactions := [.on .hover, .on .hover] })

theorem regrownCardPage_built : regrownCardPage.Built :=
  (((((Built.empty.addRoot (Slot.fresh_ofNode _)).addRoot (Slot.fresh_ofNode _)).addChild
    (Slot.fresh_ofNode _) (by decide)).addChild (Slot.fresh_ofNode _) (by decide)).addChild
    (Slot.fresh_ofNode _) (by decide)).addChild (Slot.fresh_ofNode _) (by decide)

/-- Where the nodes of the card page stand when it is grown again. -/
def regrownPlace (i : NodeId) : NodeId := [1, 2, 4, 5, 3].getD i 0

theorem lt_of_cardPage_reaches {r i : NodeId} (hr : cardPage.root = some r)
    (hi : cardPage.Reaches r i) : i < 5 := by
  cases hr
  exact cardPage_built.forest.reaches_lt (by decide) hi

theorem cardPage_relabels : Relabels regrownPlace cardPage regrownCardPage where
  root_eq := rfl
  get?_eq r i hr hi := by
    have hlt := lt_of_cardPage_reaches hr hi
    interval_cases i <;> rfl

theorem cardPage_compile_relabel :
    let css := OrderedMap.ofList [("color", "red")]
    let s := (Snapshot.empty.withStyle 4 css).withVariable "v" "Price"
    let s' := (Snapshot.empty.withStyle 3 css).withVariable "v" "Price"
    let p : Preferences := ⟨.multi, none, .inline, [.typescript, .javascript]⟩
    cardPage.Built ∧ regrownCardPage.Built ∧ Relabels regrownPlace cardPage regrownCardPage ∧
      (∀ r i, cardPage.root = some r → cardPage.Reaches r i →
        s'.style (regrownPlace i) = s.style i) ∧
      s.SameVariables s' ∧ regrownCardPage.compile s' p = cardPage.compile s p := by
  intro css s s' p
  have hstyle : ∀ r i, cardPage.root = some r → cardPage.Reaches r i →
      s'.style (regrownPlace i) = s.style i := by
    intro r i hr hi
    have hlt := lt_of_cardPage_reaches hr hi
    interval_cases i <;> rfl
  have hs : s.SameVariables s' := fun v => rfl
  exact ⟨cardPage_built, regrownCardPage_built, cardPage_relabels, hstyle, hs,
    compile_relabel cardPage_built regrownCardPage_built cardPage_relabels hstyle hs p⟩

end Scene

end DesignComponents
