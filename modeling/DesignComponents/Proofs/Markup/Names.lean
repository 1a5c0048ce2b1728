import DesignComponents.Proofs.Component.Sheets
import DesignComponents.Proofs.Identifier.Letters
import DesignComponents.Proofs.Markup.Layout

/-! Names in markup. The tags, classes, events, handlers and passed properties of a component's
markup are made of name characters, whatever the nodes of the scene are called. -/

namespace DesignComponents

open Identifier (Lettered Table)

namespace Blueprint

/-- The names that an element is written with. -/
def names : Blueprint → List String
  | boundary _ tag bindings => tag :: bindings
  | text _ styleClass element _ => [styleClass, element]
  | label _ styleClass _ => [styleClass, division]
  | container _ styleClass _ => [styleClass, division]

end Blueprint

def Attribute.names : Attribute → List String
  | styleClass value => [value]
  | listener event handler => [event, handler]
  | binding name => [name]

/-- The names in the tags of an element. -/
def Markup.names (m : Markup) : List String := m.tag :: m.attributes.flatMap Attribute.names

theorem Trigger.lettered_domEvent (k : Trigger) : Lettered k.domEvent := by
  cases k <;> decide

theorem lettered_textElement (e : TextElement) : Lettered e.tag := by
  cases e <;> decide

namespace Tree

variable {e : Environment}

/-- An element's class is the tag of its node. -/
theorem class_eq_of_mem_elements {scope : Scope} {t : Tree} {b : Blueprint} {i : NodeId}
    {styleClass : String} (hb : b ∈ (t.blueprint e scope).elements)
    (hc : b.classed? = some (i, styleClass)) : styleClass = e.tagOf i := by
  have hmem : (i, styleClass) ∈ (t.blueprint e scope).classed := List.mem_filterMap.mpr ⟨b, hb, hc⟩
  rw [classed_blueprint] at hmem
  obtain ⟨n, -, hn⟩ := List.mem_map.mp hmem
  cases hn
  rfl

theorem lettered_of_mem_elements (h : e.names.Lettered) {scope : Scope} {t : Tree} {b : Blueprint}
    (hb : b ∈ (t.blueprint e scope).elements) : ∀ name ∈ b.names, Lettered name := by
  have hclass : ∀ {i styleClass}, b.classed? = some (i, styleClass) → Lettered styleClass := by
    intro i styleClass hc
    rw [class_eq_of_mem_elements hb hc]
    exact h.nameOf .tag (.node i)
  have hdivision : Lettered Blueprint.division := by decide
  cases b with
  | boundary i tag bindings =>
    obtain ⟨site, -, rfl, rfl, rfl⟩ := exists_site_of_boundary hb
    refine List.forall_mem_cons.mpr ⟨h.nameOf .tag _, fun name hn => ?_⟩
    obtain ⟨d, -, rfl⟩ := mem_map_name_properties.mp hn
    exact h.nameOf .member _
  | text i styleClass element n =>
    have helement : Lettered element := element_eq_of_text hb ▸ lettered_textElement _
    simpa [Blueprint.names] using ⟨hclass rfl, helement⟩
  | label i styleClass name => simpa [Blueprint.names] using ⟨hclass rfl, hdivision⟩
  | container i styleClass children => simpa [Blueprint.names] using ⟨hclass rfl, hdivision⟩

end Tree

namespace Descriptor

/-- Markup adds the names of events to those of its element, or makes a button of it. -/
theorem lettered_markupOf {d : Descriptor} {textOf : Node → List Piece} {inButton : Bool}
    {b : Blueprint} (hb : ∀ name ∈ b.names, Lettered name)
    (hd : ∀ v ∈ d.events, Lettered v.handler) :
    ∀ name ∈ (d.markupOf textOf inButton b).names, Lettered name := by
  have hlisteners : ∀ i, ∀ name ∈ (listeners (d.eventsOf i)).flatMap Attribute.names,
      Lettered name := by
    intro i name hn
    obtain ⟨a, ha, hn⟩ := List.mem_flatMap.mp hn
    obtain ⟨v, hv, rfl⟩ := List.mem_map.mp ha
    rcases List.mem_pair.mp hn with rfl | rfl
    · exact v.trigger.lettered_domEvent
    · exact hd v (List.mem_filter.mp hv).1
  have hclassed : ∀ (asButton : Bool) i styleClass element,
      (∀ name ∈ [styleClass, element], Lettered name) →
        ∀ name ∈ (if asButton then "button" else element) :: styleClass ::
          (listeners (d.eventsOf i)).flatMap Attribute.names, Lettered name := by
    intro asButton i styleClass element hnames
    refine List.forall_mem_cons.mpr ⟨?_, List.forall_mem_cons.mpr ⟨?_, hlisteners i⟩⟩
    · split_ifs
      · decide
      · exact hnames element (List.mem_pair.mpr (.inr rfl))
    · exact hnames styleClass (List.mem_pair.mpr (.inl rfl))
  cases b with
  | boundary i tag bindings =>
    have hnames : (d.markupOf textOf inButton (.boundary i tag bindings)).names =
        tag :: bindings := by
      simp [markupOf, Markup.names, Markup.tag, Markup.attributes, List.flatMap_map,
        Attribute.names]
    rw [hnames]
    exact hb
  | text i styleClass element n => exact hclassed _ i _ _ hb
  | label i styleClass name => exact hclassed _ i _ _ hb
  | container i styleClass children =>
    rw [markupOf]
    exact hclassed _ i _ _ hb

end Descriptor

namespace Tree

variable {o : Options} {s : Snapshot} {t : Tree}

theorem lettered_plan (o : Options) (s : Snapshot) (t : Tree) : (t.plan o s).Lettered :=
  ((Table.lettered_empty.assignAll _).assignAll _).assignAll _

theorem lettered_of_mem_propertyNames {site : Site} {name : String}
    (h : name ∈ (site.describe (t.environment o s)).propertyNames) : Lettered name := by
  obtain ⟨d, -, rfl⟩ := mem_map_name_properties.mp h
  exact (lettered_plan o s t).nameOf .member d.source.entity

/-- All names of a component's markup are made of name characters. -/
theorem lettered_markup (site : Site) (names : Table) {m : Markup}
    (hm : m ∈ ((site.describe (t.environment o s)).markup s names).elements) :
    ∀ name ∈ m.names, Lettered name := by
  have h : (t.environment o s).names.Lettered := lettered_plan o s t
  obtain ⟨b, hb, inButton, rfl⟩ := Descriptor.exists_element_of_markup hm
  refine Descriptor.lettered_markupOf (lettered_of_mem_elements h hb) fun v hv => ?_
  obtain ⟨-, -, hv⟩ := signal_of_mem_events hv
  rw [hv]
  exact h.nameOf .member _

end Tree

end DesignComponents
