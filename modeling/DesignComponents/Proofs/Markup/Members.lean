import DesignComponents.Markup.Printer
import DesignComponents.Proofs.Component.Elements
import DesignComponents.Proofs.Component.Naming

/-! Members that markup uses. Each element puts in the members of its attributes and then those of
its text; every name that the texts of a component look up is in the table, and what they put in
is declared by the component itself. -/

namespace DesignComponents

open Identifier (Entity Table)

namespace Markup

@[elab_as_elim, induction_eliminator]
theorem induct {motive : Markup → Prop}
    (inline : ∀ tag attributes content, motive (.inline tag attributes content))
    (block : ∀ tag attributes children, (∀ m ∈ children, motive m) →
      motive (.block tag attributes children)) : ∀ m, motive m
  | .inline tag attributes content => inline tag attributes content
  | .block tag attributes children =>
    block tag attributes children fun m _ => induct inline block m

mutual

/-- All elements, each before those inside of it. -/
def elements : Markup → List Markup
  | inline tag attributes content => [inline tag attributes content]
  | block tag attributes children => block tag attributes children :: elementsAll children

def elementsAll : List Markup → List Markup
  | [] => []
  | m :: ms => elements m ++ elementsAll ms

end

theorem elementsAll_eq (ms : List Markup) : elementsAll ms = ms.flatMap elements := by
  induction ms with
  | nil => rfl
  | cons m ms ih => rw [elementsAll, ih, List.flatMap_cons]

def attributes : Markup → List Attribute
  | inline _ attributes _ => attributes
  | block _ attributes _ => attributes

def content : Markup → List Piece
  | inline _ _ content => content
  | block _ _ _ => []

end Markup

/-- The member that a piece puts in. -/
def Piece.member? : Piece → Option String
  | .literal _ => none
  | .member name => some name

/-- The member that an attribute puts in. -/
def Attribute.member? : Attribute → Option String
  | .styleClass _ => none
  | .listener _ handler => some handler
  | .binding name => some name

namespace Markup

/-- The members that an element puts in without those inside of it, in order. -/
def ownMembers (m : Markup) : List String :=
  m.attributes.filterMap Attribute.member? ++ m.content.filterMap Piece.member?

/-- The members that all elements put in, in order. -/
def members (m : Markup) : List String := m.elements.flatMap ownMembers

theorem members_inline (tag : String) (attributes : List Attribute) (content : List Piece) :
    (inline tag attributes content).members =
      attributes.filterMap Attribute.member? ++ content.filterMap Piece.member? := by
  rw [members, elements, List.flatMap_singleton]
  rfl

theorem members_block (tag : String) (attributes : List Attribute) (children : List Markup) :
    (block tag attributes children).members =
      attributes.filterMap Attribute.member? ++ children.flatMap members := by
  rw [members, elements, elementsAll_eq, List.flatMap_cons, List.flatMap_assoc]
  exact congrArg (· ++ _) (List.append_nil _)

end Markup

/-- The things whose names a text shows, in order. -/
def Binding.entities : Binding → List Entity
  | .placeholders segments => segments.filterMap fun
    | .literal _ => none
    | .placeholder body => some (Source.placeholder body).entity
  | .property key => [(Source.property key).entity]
  | .variable id _ => [(Source.variable id).entity]
  | .literal _ => []

theorem Binding.entities_eq (scope : Scope) (b : Binding) :
    b.entities = (Draft.ofBinding scope b).map (·.source.entity) := by
  cases b with
  | placeholders segments =>
    simp only [entities, Draft.ofBinding, List.map_filterMap]
    congr 1
    funext segment
    cases segment <;> rfl
  | property key => rfl
  | «variable» id name => rfl
  | literal text => rfl

/-- The pieces of a text when all of its names are in the table. -/
def Binding.pieces (names : Table) : Binding → List Piece
  | .placeholders segments => segments.map fun
    | .literal text => .literal text
    | .placeholder body => .member (names.nameOf .member (Source.placeholder body).entity)
  | .property key => [.member (names.nameOf .member (Source.property key).entity)]
  | .variable id _ => [.member (names.nameOf .member (Source.variable id).entity)]
  | .literal text => [.literal text]

/-- With every name in the table, no text falls back on what it says. -/
theorem Piece.ofText_eq_pieces {s : Snapshot} {names : Table} {n : Node}
    (h : ∀ a ∈ (Binding.classify s n).entities, ∃ name, names.lookup .member a = some name) :
    Piece.ofText s names n = (Binding.classify s n).pieces names := by
  have hb : ∀ a ∈ (Binding.classify s n).entities, ∀ fallback,
      Piece.bound names a fallback = .member (names.nameOf .member a) := by
    intro a ha fallback
    obtain ⟨name, hn⟩ := h a ha
    simp [Piece.bound, hn, Table.nameOf_eq hn]
  simp only [Piece.ofText]
  cases hc : Binding.classify s n with
  | placeholders segments =>
    rw [hc] at hb
    refine List.map_congr_left fun segment hs => ?_
    cases segment with
    | literal text => rfl
    | placeholder body => exact hb _ (List.mem_filterMap.mpr ⟨_, hs, rfl⟩) _
  | property key =>
    rw [hc] at hb
    simp [Binding.pieces, hb _ List.mem_cons_self]
  | «variable» id name =>
    rw [hc] at hb
    simp [Binding.pieces, hb _ List.mem_cons_self]
  | literal text => rfl

/-- With every name in the table, a text shows all of its members and nothing else. -/
theorem Piece.filterMap_member?_ofText {s : Snapshot} {names : Table} {n : Node}
    (h : ∀ a ∈ (Binding.classify s n).entities, ∃ name, names.lookup .member a = some name) :
    (Piece.ofText s names n).filterMap Piece.member? =
      (Binding.classify s n).entities.map (names.nameOf .member) := by
  rw [Piece.ofText_eq_pieces h]
  cases Binding.classify s n with
  | placeholders segments =>
    simp only [Binding.pieces, Binding.entities, List.filterMap_map, List.map_filterMap]
    refine List.filterMap_congr fun segment _ => ?_
    cases segment <;> rfl
  | property _ | «variable» _ _ | literal _ => rfl

namespace Descriptor

theorem markupOfAll_eq (d : Descriptor) (textOf : Node → List Piece) (inButton : Bool)
    (bs : List Blueprint) : d.markupOfAll textOf inButton bs = bs.map (d.markupOf textOf inButton) := by
  induction bs with
  | nil => rfl
  | cons b bs ih => rw [markupOfAll, ih, List.map_cons]

/-- Every element of markup is the markup of an element. -/
theorem exists_element_of_markup {d : Descriptor} {textOf : Node → List Piece} {inButton : Bool}
    {b : Blueprint} {m : Markup} (h : m ∈ (d.markupOf textOf inButton b).elements) :
    ∃ b' ∈ b.elements, ∃ inButton', m = d.markupOf textOf inButton' b' := by
  induction b generalizing inButton with
  | boundary origin tag bindings =>
    exact ⟨_, List.mem_singleton_self _, inButton, List.mem_singleton.mp h⟩
  | text origin styleClass element node =>
    exact ⟨_, List.mem_singleton_self _, inButton, List.mem_singleton.mp h⟩
  | label origin styleClass name =>
    exact ⟨_, List.mem_singleton_self _, inButton, List.mem_singleton.mp h⟩
  | container origin styleClass children ih =>
    rw [markupOf, Markup.elements, Markup.elementsAll_eq, List.mem_cons, List.mem_flatMap] at h
    rcases h with rfl | ⟨m', hm', h⟩
    · exact ⟨_, Blueprint.mem_elements_container.mpr (.inl rfl), inButton, by rw [markupOf]⟩
    · rw [markupOfAll_eq] at hm'
      obtain ⟨c, hc, rfl⟩ := List.mem_map.mp hm'
      obtain ⟨b', hb', inButton', rfl⟩ := ih c hc h
      exact ⟨b', Blueprint.mem_elements_container.mpr (.inr ⟨c, hc, hb'⟩), inButton', rfl⟩

/-- The markup of a component, of which `render` gives the text. -/
def markup (d : Descriptor) (s : Snapshot) (names : Table) : Markup :=
  d.markupOf (Piece.ofText s names) false d.root

theorem render_eq (d : Descriptor) (s : Snapshot) (names : Table) :
    d.render s names = (d.markup s names).print := rfl

def propertyNames (d : Descriptor) : List String := d.properties.map Token.name

variable {d : Descriptor} {textOf : Node → List Piece} {inButton : Bool} {b : Blueprint}

/-- Only texts have members in their content. -/
theorem exists_text_of_member {name : String}
    (h : Piece.member name ∈ (d.markupOf textOf inButton b).content) :
    ∃ i styleClass element n, b = .text i styleClass element n ∧ Piece.member name ∈ textOf n := by
  cases b with
  | text i styleClass element n => exact ⟨i, styleClass, element, n, rfl, h⟩
  | label i styleClass display =>
    have hl := List.mem_singleton.mp h
    cases hl
  | boundary i tag bindings => cases h
  | container i styleClass children =>
    rw [markupOf] at h
    cases h

end Descriptor

namespace Tree

variable {o : Options} {s : Snapshot} {t : Tree}

/-- The name of everything that a site draws on is one of its properties. -/
theorem nameOf_mem_propertyNames {site : Site} {d : Draft}
    (hd : d ∈ site.tree.drafts s site.scope) :
    (t.plan o s).nameOf .member d.source.entity ∈
      (site.describe (t.environment o s)).propertyNames :=
  mem_map_name_properties.mpr ⟨d, hd, rfl⟩

theorem exists_draft_of_entity {site : Site} {i : NodeId} {styleClass element : String} {n : Node}
    {a : Entity} {e : Environment}
    (h : Blueprint.text i styleClass element n ∈ (site.tree.blueprint e site.scope).elements)
    (ha : a ∈ (Binding.classify s n).entities) :
    ∃ d ∈ site.tree.drafts s site.scope, d.source.entity = a := by
  obtain ⟨inner, hi⟩ := exists_drafts_of_text h s
  rw [Binding.entities_eq inner] at ha
  obtain ⟨d, hd, rfl⟩ := List.mem_map.mp ha
  exact ⟨d, hi hd, rfl⟩

/-- No look-up of a text misses. -/
theorem exists_lookup_of_text {site : Site} (hs : site ∈ t.sites o) {i : NodeId}
    {styleClass element : String} {n : Node}
    (h : Blueprint.text i styleClass element n ∈
      (site.describe (t.environment o s)).root.elements) {a : Entity}
    (ha : a ∈ (Binding.classify s n).entities) :
    ∃ name, (t.plan o s).lookup .member a = some name := by
  obtain ⟨d, hd, rfl⟩ := exists_draft_of_entity h ha
  exact exists_lookup_plan hs hd

/-- What the texts put in are properties of the component. -/
theorem mem_propertyNames_of_member {site : Site} (hs : site ∈ t.sites o) {m : Markup}
    (hm : m ∈ ((site.describe (t.environment o s)).markup s (t.plan o s)).elements) {name : String}
    (hn : Piece.member name ∈ m.content) :
    name ∈ (site.describe (t.environment o s)).propertyNames := by
  obtain ⟨b, hb, inButton, rfl⟩ := Descriptor.exists_element_of_markup hm
  obtain ⟨i, styleClass, element, n, rfl, htext⟩ := Descriptor.exists_text_of_member hn
  have hmem : name ∈ (Piece.ofText s (t.plan o s) n).filterMap Piece.member? :=
    List.mem_filterMap.mpr ⟨_, htext, rfl⟩
  rw [Piece.filterMap_member?_ofText fun a ha => exists_lookup_of_text hs hb ha] at hmem
  obtain ⟨a, ha, rfl⟩ := List.mem_map.mp hmem
  obtain ⟨d, hd, rfl⟩ := exists_draft_of_entity hb ha
  exact nameOf_mem_propertyNames hd

end Tree

end DesignComponents
