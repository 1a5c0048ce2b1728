import DesignComponents.Proofs.Component.Classification
import DesignComponents.Proofs.Markup.Legibility

/-! The texts of a scene in its markup. Whatever a text says, a reader of the markup finds just that
where the node is shown: the literal runs of a text with placeholders and the member of each
placeholder between them, the member of a property or of a variable, or the text itself. A
node with neither text nor children shows its name. -/

namespace DesignComponents

open Identifier (Lettered Namespace Table)
open Text.TemplateLiteral

/-- The items that stand for a segment of a text. -/
inductive SegmentItems (names : Table) : Text.Segment → List Item → Prop
  | literal (text : String) : SegmentItems names (.literal text) (chars text.toList)
  | placeholder {body name : String}
      (h : names.lookup .member (.placeholder (Namespace.member.normalize body)) = some name) :
      SegmentItems names (.placeholder body) [memberItem name]

/-- The items that stand for the text of a node. Placeholders come first, then a property that the
text refers to, then a bound variable whose name is known. -/
inductive TextItems (s : Snapshot) (names : Table) (n : Node) (text : String) : List Item → Prop
  | placeholders {items : List (List Item)} (hp : ∃ body, .placeholder body ∈ Text.segments text)
      (h : List.Forall₂ (SegmentItems names) (Text.segments text) items) :
      TextItems s names n text items.flatten
  | property {key name : String} (hp : ∀ body, .placeholder body ∉ Text.segments text)
      (hr : n.textReference = some key) (h : names.lookup .member (.property key) = some name) :
      TextItems s names n text [memberItem name]
  | variable {id : VariableId} {label name : String}
      (hp : ∀ body, .placeholder body ∉ Text.segments text) (hr : n.textReference = none)
      (hv : n.boundVariable = some id) (hs : s.variableName? id = some label)
      (h : names.lookup .member (.variable id) = some name) :
      TextItems s names n text [memberItem name]
  | literal (hp : ∀ body, .placeholder body ∉ Text.segments text) (hr : n.textReference = none)
      (hv : ∀ id, n.boundVariable = some id → s.variableName? id = none) :
      TextItems s names n text (chars text.toList)

namespace Piece

variable {s : Snapshot} {names : Table}

theorem bound_eq_member {a : Identifier.Entity} {name : String}
    (h : names.lookup .member a = some name) (fallback : String) :
    bound names a fallback = member name := by
  simp only [bound, h]

theorem printAll_singleton (p : Piece) : printAll [p] = p.print := by
  simp [printAll]

theorem printAll_cons (p : Piece) (ps : List Piece) :
    printAll (p :: ps) = p.print ++ printAll ps := by
  rw [printAll, List.map_cons, String.join_cons]
  rfl

theorem reads_literal (text : String) : Reads (literal text).print.toList (chars text.toList) := by
  rw [print, Text.templateText, String.toList_ofList]
  exact reads_escapeTemplate text.toList

theorem head?_substitution (name : String) : (substitution name).toList.head? = some '$' := by
  rw [toList_substitution]
  rfl

/-- What a reader finds for something that is bound: its member, or the given text if it has none. -/
def boundItems (names : Table) (a : Identifier.Entity) (fallback : String) : List Item :=
  match names.lookup .member a with
  | some name => [memberItem name]
  | none => chars fallback.toList

/-- What a reader finds for a segment; a placeholder without a name is found as it was written. -/
def segmentItems (names : Table) : Text.Segment → List Item
  | .literal text => chars text.toList
  | .placeholder body =>
    boundItems names (Source.placeholder body).entity ("\x7b\x7b" ++ body ++ "\x7d\x7d")

theorem expressions_boundItems (a : Identifier.Entity) (fallback : String) :
    expressions (boundItems names a fallback) =
      ([bound names a fallback].filterMap member?).map memberExpression := by
  rw [boundItems, bound]
  cases names.lookup .member a with
  | some name => rfl
  | none => exact expressions_chars _

/-- What the segments put in are the members among their pieces. -/
theorem expressions_segmentItems (segments : List Text.Segment) :
    expressions (segments.flatMap (segmentItems names)) =
      ((segments.map (ofSegment names)).filterMap member?).map memberExpression := by
  induction segments with
  | nil => rfl
  | cons segment segments ih =>
    have hfirst : expressions (segmentItems names segment) =
        ([ofSegment names segment].filterMap member?).map memberExpression := by
      cases segment with
      | literal text => exact expressions_chars _
      | placeholder body => exact expressions_boundItems _ _
    rw [List.flatMap_cons, expressions_append, ih, hfirst, List.map_cons, ← List.map_append,
      ← List.filterMap_append, List.singleton_append]

/-- A literal run that ends in a dollar sign must not stand in front of a placeholder that is written
out, for the placeholder starts with a brace. -/
def Parted (names : Table) : Text.Segment → Text.Segment → Prop
  | .literal text, .placeholder body => text.toList.getLast? = some '$' →
    (names.lookup .member (Source.placeholder body).entity).isSome = true
  | _, _ => True

theorem reads_bound (hn : names.Lettered) (a : Identifier.Entity) (fallback : String) :
    Reads (bound names a fallback).print.toList (boundItems names a fallback) := by
  rw [bound, boundItems]
  cases h : names.lookup .member a with
  | some name => exact reads_substitution (hn _ (Table.mem_entries_of_lookup h))
  | none => exact reads_literal fallback

theorem reads_segment (hn : names.Lettered) (segment : Text.Segment) :
    Reads (ofSegment names segment).print.toList (segmentItems names segment) := by
  cases segment with
  | literal text => exact reads_literal text
  | placeholder body => exact reads_bound hn _ _

/-- A placeholder ends in a brace, be it a substitution or written out. -/
theorem getLast?_placeholder (hn : names.Lettered) (body : String) :
    (ofSegment names (.placeholder body)).print.toList.getLast? ≠ some '$' := by
  rw [ofSegment, bound]
  cases h : names.lookup .member (Source.placeholder body).entity with
  | some name =>
    exact (puts_substitution (hn _ (Table.mem_entries_of_lookup h))).getLast?_ne
  | none =>
    have hbraces : "\x7d\x7d".toList.getLast? = some '\x7d' := by decide
    rw [print, Text.templateText, String.toList_ofList, getLast?_escapeTemplate,
      String.toList_append, List.getLast?_append, hbraces, Option.some_or]
    decide

/-- Between parted neighbours, only the substitution of the second one comes behind a dollar sign. -/
theorem head?_of_parted (hn : names.Lettered) {segment next : Text.Segment}
    (hapart : segment.Apart next) (hparted : Parted names segment next)
    (rest : List Text.Segment)
    (hlast : (ofSegment names segment).print.toList.getLast? = some '$') :
    (printAll ((next :: rest).map (ofSegment names))).toList.head? = some '$' := by
  cases segment with
  | placeholder body => exact absurd hlast (getLast?_placeholder hn body)
  | literal text =>
    cases next with
    | literal text' => cases hapart rfl
    | placeholder body =>
      rw [ofSegment, print, Text.templateText, String.toList_ofList, getLast?_escapeTemplate] at hlast
      obtain ⟨name, hname⟩ := Option.isSome_iff_exists.mp (hparted hlast)
      rw [List.map_cons, printAll_cons, ofSegment, bound_eq_member hname, print,
        String.toList_append, List.head?_append, head?_substitution, Option.some_or]

/-- A text whose segments are parted reads segment by segment. -/
theorem reads_segments (hn : names.Lettered) {segments : List Text.Segment}
    (hchain : segments.IsChain Text.Segment.Apart) (hparted : segments.IsChain (Parted names)) :
    Reads (printAll (segments.map (ofSegment names))).toList
      (segments.flatMap (segmentItems names)) := by
  induction segments with
  | nil => exact reads_nil
  | cons segment segments ih =>
    rw [List.map_cons, printAll_cons, String.toList_append, List.flatMap_cons]
    refine (reads_segment hn segment).append (ih hchain.tail hparted.tail) fun hlast => ?_
    cases segments with
    | nil => simp [printAll]
    | cons next segments =>
      rw [head?_of_parted hn (List.isChain_cons_cons.mp hchain).1
        (List.isChain_cons_cons.mp hparted).1 segments hlast]
      decide

theorem segmentItems_of_lookup {segment : Text.Segment}
    (h : ∀ body, segment = .placeholder body →
      ∃ name, names.lookup .member (Source.placeholder body).entity = some name) :
    SegmentItems names segment (segmentItems names segment) := by
  cases segment with
  | literal text => exact .literal text
  | placeholder body =>
    obtain ⟨name, hname⟩ := h body rfl
    rw [segmentItems, boundItems, hname]
    exact .placeholder hname

end Piece

/-! ### Texts of nodes -/

/-- The items that stand for the text of a node when any of its names may be missing. What has no
name stands for itself: a placeholder with its braces, any other text as a whole. -/
inductive FallbackItems (s : Snapshot) (names : Table) (n : Node) (text : String) :
    List Item → Prop
  | placeholders (hp : ∃ body, .placeholder body ∈ Text.segments text) :
      FallbackItems s names n text
        ((Text.segments text).flatMap (Piece.segmentItems names))
  | property {key : String} (hp : ∀ body, .placeholder body ∉ Text.segments text)
      (hr : n.textReference = some key) :
      FallbackItems s names n text (Piece.boundItems names (Source.property key).entity text)
  | variable {id : VariableId} {label : String}
      (hp : ∀ body, .placeholder body ∉ Text.segments text) (hr : n.textReference = none)
      (hv : n.boundVariable = some id) (hs : s.variableName? id = some label) :
      FallbackItems s names n text (Piece.boundItems names (Source.variable id).entity text)
  | literal (hp : ∀ body, .placeholder body ∉ Text.segments text) (hr : n.textReference = none)
      (hv : ∀ id, n.boundVariable = some id → s.variableName? id = none) :
      FallbackItems s names n text (chars text.toList)

/-- No literal run that ends in a dollar sign stands in front of a placeholder without a name. -/
def Seamless (names : Table) (text : String) : Prop :=
  (Text.segments text).IsChain (Piece.Parted names)

section Nodes

variable {s : Snapshot} {names : Table} {n : Node} {text : String}

/-- A seam has a placeholder without a name behind it. -/
theorem seamless_of_lookup (hits : ∀ body, .placeholder body ∈ Text.segments text →
    ∃ name, names.lookup .member (Source.placeholder body).entity = some name) :
    Seamless names text := by
  refine (Text.isChain_apart_segments text).imp_of_mem_imp fun segment next _ hnext _ => ?_
  cases segment with
  | placeholder body => trivial
  | literal run =>
    cases next with
    | literal run' => trivial
    | placeholder body => exact fun _ => Option.isSome_iff_exists.mpr (hits body hnext)

/-- The text of a node reads as what stands for it, unless a dollar sign meets a placeholder without
a name. -/
theorem exists_fallbackItems (hn : names.Lettered) (ht : n.characters = some text) :
    ∃ items, FallbackItems s names n text items ∧
      (Seamless names text → Reads (Piece.printAll (Piece.ofText s names n)).toList items) := by
  have hbound : ∀ a, Reads (Piece.printAll [Piece.bound names a text]).toList
      (Piece.boundItems names a text) := by
    intro a
    rw [Piece.printAll_singleton]
    exact Piece.reads_bound hn a text
  have hfits := Binding.fits_classify (s := s) ht
  simp only [Piece.ofText, ht, Option.getD_some]
  generalize Binding.classify s n = b at hfits ⊢
  cases hfits with
  | placeholders hp =>
    exact ⟨_, .placeholders hp, Piece.reads_segments hn (Text.isChain_apart_segments text)⟩
  | property hp hr => exact ⟨_, .property hp hr, fun _ => hbound _⟩
  | «variable» hp hr hv hs => exact ⟨_, .variable hp hr hv hs, fun _ => hbound _⟩
  | literal hp hr hv =>
    refine ⟨_, .literal hp hr hv, fun _ => ?_⟩
    rw [Piece.printAll_singleton]
    exact Piece.reads_literal text

/-- What a text puts in are the members among its pieces. -/
theorem FallbackItems.expressions_eq {items : List Item} (h : FallbackItems s names n text items)
    (ht : n.characters = some text) :
    expressions items =
      ((Piece.ofText s names n).filterMap Piece.member?).map memberExpression := by
  simp only [Piece.ofText, ht, Option.getD_some]
  cases h with
  | placeholders hp =>
    rw [(Binding.Fits.placeholders hp).classify_eq ht]
    exact Piece.expressions_segmentItems _
  | property hp hr =>
    rw [(Binding.Fits.property hp hr).classify_eq ht]
    exact Piece.expressions_boundItems _ _
  | «variable» hp hr hv hs =>
    rw [(Binding.Fits.variable hp hr hv hs).classify_eq ht]
    exact Piece.expressions_boundItems _ _
  | literal hp hr hv =>
    rw [(Binding.Fits.literal hp hr hv).classify_eq ht]
    exact expressions_chars _

/-- Where every name is in the table, nothing has to stand for itself. -/
theorem FallbackItems.textItems {items : List Item} (h : FallbackItems s names n text items)
    (ht : n.characters = some text)
    (hits : ∀ a ∈ (Binding.classify s n).entities, ∃ name, names.lookup .member a = some name) :
    TextItems s names n text items := by
  cases h with
  | placeholders hp =>
    simp only [(Binding.Fits.placeholders hp).classify_eq ht, Binding.entities,
      List.mem_filterMap] at hits
    rw [List.flatMap_def]
    refine .placeholders hp ?_
    rw [List.forall₂_map_right_iff, List.forall₂_same]
    exact fun segment hs => Piece.segmentItems_of_lookup fun body hb => hits _ ⟨_, hb ▸ hs, rfl⟩
  | property hp hr =>
    rw [(Binding.Fits.property hp hr).classify_eq ht] at hits
    obtain ⟨name, hname⟩ := hits _ List.mem_cons_self
    rw [Piece.boundItems, hname]
    exact .property hp hr hname
  | «variable» hp hr hv hs =>
    rw [(Binding.Fits.variable hp hr hv hs).classify_eq ht] at hits
    obtain ⟨name, hname⟩ := hits _ List.mem_cons_self
    rw [Piece.boundItems, hname]
    exact .variable hp hr hv hs hname
  | literal hp hr hv => exact .literal hp hr hv

/-- A node's text reads as what stands for it, if every name that it shows is in the table. -/
theorem exists_reads_ofText (hn : names.Lettered) (ht : n.characters = some text)
    (hits : ∀ a ∈ (Binding.classify s n).entities, ∃ name, names.lookup .member a = some name) :
    ∃ items, TextItems s names n text items ∧
      Reads (Piece.printAll (Piece.ofText s names n)).toList items ∧
      expressions items =
        ((Piece.ofText s names n).filterMap Piece.member?).map memberExpression := by
  obtain ⟨items, hitems, hreads⟩ := exists_fallbackItems (s := s) hn ht
  refine ⟨items, hitems.textItems ht hits, hreads (seamless_of_lookup fun body hb => ?_),
    hitems.expressions_eq ht⟩
  simp only [(Binding.Fits.placeholders ⟨body, hb⟩).classify_eq ht, Binding.entities,
    List.mem_filterMap] at hits
  exact hits _ ⟨_, hb, rfl⟩

end Nodes

/-! ### Elements with text -/

namespace Tree

variable {e : Environment} {scene : Scene}

/-- A text shows a node that has no list of children. -/
theorem get?_of_text {scope : Scope} {t : Tree} (hsh : scene.Shows t) {i : NodeId}
    {styleClass element : String} {n : Node}
    (h : Blueprint.text i styleClass element n ∈ (t.blueprint e scope).elements) :
    scene.get? i = some ⟨n, none⟩ ∧ n.characters.isSome = true := by
  revert hsh
  refine induct_of_text (motive := fun _ u => scene.Shows u →
    scene.get? i = some ⟨n, none⟩ ∧ n.characters.isSome = true) ?_ ?_ h
  · intro _ hn _ hsh
    cases hsh with
    | leaf hs => exact ⟨hs, hn⟩
  · exact fun _ _ _ _ c hc ih hsh => ih (hsh.of_mem hc)

/-- A label shows the name of a node that has neither text nor a list of children. -/
theorem exists_get?_of_label {scope : Scope} {t : Tree} (hsh : scene.Shows t) {i : NodeId}
    {styleClass name : String}
    (h : Blueprint.label i styleClass name ∈ (t.blueprint e scope).elements) :
    ∃ n, scene.get? i = some ⟨n, none⟩ ∧ n.characters = none ∧ n.name = name := by
  induction t generalizing scope with
  | leaf id node =>
    rw [blueprint_leaf] at h
    split_ifs at h with hn
    · simp [Blueprint.elements] at h
    · rw [Blueprint.elements, List.mem_singleton] at h
      cases h
      cases hsh with
      | leaf hs => exact ⟨node, hs, Option.not_isSome_iff_eq_none.mp hn, rfl⟩
  | branch id node children ih =>
    rcases mem_elements_branch.mp h with h | ⟨c, hc, h⟩
    · rw [blueprint_branch] at h
      cases h
    · rcases mem_elements_childBlueprint h with ⟨-, h⟩ | h
      · cases h
      · exact ih c hc (hsh.of_mem hc) h

/-- No owned node without children is passed over. -/
theorem leaf_mem_elements {scope : Scope} {t : Tree} (hsh : scene.Shows t) {i : NodeId} {n : Node}
    (hs : scene.get? i = some ⟨n, none⟩) (hn : (i, n) ∈ t.owned e.options) :
    (leaf i n).blueprint e scope ∈ (t.blueprint e scope).elements := by
  induction t generalizing scope with
  | leaf id node =>
    rw [owned_leaf, List.mem_singleton] at hn
    cases hn
    exact Blueprint.self_mem_elements _
  | branch id node children ih =>
    rw [owned_branch, List.mem_cons, List.mem_flatMap] at hn
    rcases hn with hn | ⟨c, hc, hn⟩
    · cases hn
      -- the node of a branch has a list of children
      cases hsh with
      | branch hs' => rw [hs] at hs'; cases hs'
    · obtain ⟨hbound, hn⟩ := mem_childOwned.mp hn
      have hchild : c.childBlueprint e (scope.enter node) = c.blueprint e (scope.enter node) := by
        rw [childBlueprint, hbound]
        rfl
      refine mem_elements_branch.mpr (.inr ⟨c, hc, ?_⟩)
      rw [hchild]
      exact ih c hc (hsh.of_mem hc) hn

/-- A node with text that the component owns is shown as a text. -/
theorem text_mem_elements {scope : Scope} {t : Tree} (hsh : scene.Shows t) {i : NodeId} {n : Node}
    {characters : String} (hs : scene.get? i = some ⟨n, none⟩)
    (hn : (i, n) ∈ t.owned e.options) (hc : n.characters = some characters) :
    Blueprint.text i (e.tagOf i) e.options.textElement.tag n ∈ (t.blueprint e scope).elements := by
  have h : (leaf i n).blueprint e scope ∈ (t.blueprint e scope).elements :=
    leaf_mem_elements hsh hs hn
  rwa [blueprint_leaf, hc, Option.isSome_some, if_pos rfl] at h

/-- An owned node with neither text nor a list of children is shown as a label. -/
theorem label_mem_elements {scope : Scope} {t : Tree} (hsh : scene.Shows t) {i : NodeId} {n : Node}
    (hs : scene.get? i = some ⟨n, none⟩) (hn : (i, n) ∈ t.owned e.options)
    (hc : n.characters = none) :
    Blueprint.label i (e.tagOf i) n.name ∈ (t.blueprint e scope).elements := by
  have h : (leaf i n).blueprint e scope ∈ (t.blueprint e scope).elements :=
    leaf_mem_elements hsh hs hn
  rwa [blueprint_leaf, hc, Option.isSome_none, if_neg Bool.false_ne_true] at h

end Tree

namespace Descriptor

/-- Every element has its markup. -/
theorem exists_markup_of_element {d : Descriptor} {textOf : Node → List Piece} (inButton : Bool)
    {b b' : Blueprint} (h : b' ∈ b.elements) :
    ∃ inButton', d.markupOf textOf inButton' b' ∈ (d.markupOf textOf inButton b).elements := by
  induction b generalizing inButton with
  | boundary | text | label =>
    rw [List.mem_singleton.mp h]
    exact ⟨inButton, Markup.self_mem_elements _⟩
  | container origin styleClass children ih =>
    rcases Blueprint.mem_elements_container.mp h with rfl | ⟨c, hc, h⟩
    · exact ⟨inButton, Markup.self_mem_elements _⟩
    · obtain ⟨inButton', hm⟩ := ih c hc (inButton || (!(d.eventsOf origin).isEmpty && !inButton)) h
      refine ⟨inButton', ?_⟩
      rw [markupOf, markupOfAll_eq]
      exact Markup.mem_elements_block.mpr (.inr ⟨_, List.mem_map_of_mem hc, hm⟩)

/-- All of the text in the markup can be read if that of the text nodes can. -/
theorem legible_of_mem_elements {d : Descriptor} {s : Snapshot} {names : Table}
    (htext : ∀ i styleClass element n, Blueprint.text i styleClass element n ∈ d.root.elements →
      ∃ items, Reads (Piece.printAll (Piece.ofText s names n)).toList items ∧
        expressions items =
          ((Piece.ofText s names n).filterMap Piece.member?).map memberExpression)
    {m : Markup} (hm : m ∈ (d.markup s names).elements) : m.Legible := by
  obtain ⟨b, hb, inButton, rfl⟩ := exists_element_of_markup hm
  cases b with
  | boundary i tag bindings => exact ⟨[], reads_nil, rfl⟩
  | text i styleClass element n => exact htext i styleClass element n hb
  | label i styleClass name =>
    refine ⟨chars name.toList, ?_, expressions_chars _⟩
    rw [markupOf, Markup.content, Piece.printAll_singleton]
    exact Piece.reads_literal name
  | container i styleClass children =>
    rw [markupOf]
    exact ⟨[], reads_nil, rfl⟩

/-- The texts of a component stand in its markup as they are in the scene, those of all nodes that
it owns and of no others. -/
structure ShowsTexts (d : Descriptor) (scene : Scene) (o : Options) (r : NodeId) (s : Snapshot)
    (names : Table) : Prop where
  /-- Whatever text the component owns has an element with the node's tag as its class, and is
  found inside of it. -/
  text : ∀ i n characters, scene.Innermost o r d.origin i → scene.get? i = some ⟨n, none⟩ →
    n.characters = some characters →
      Text.Spells (Text.segments characters) characters.toList ∧
        ∃ element tag items, Blueprint.text i (names.tagOf i) element n ∈ d.root.elements ∧
          TextItems s names n characters items ∧
          Markup.ReadsInside (d.render s names)
            ⟨tag, .styleClass (names.tagOf i) :: listeners (d.eventsOf i)⟩ items
  /-- A node with neither text nor a list of children shows its name there. -/
  label : ∀ i n, scene.Innermost o r d.origin i → scene.get? i = some ⟨n, none⟩ →
    n.characters = none →
      ∃ tag, Blueprint.label i (names.tagOf i) n.name ∈ d.root.elements ∧
        Markup.ReadsInside (d.render s names)
          ⟨tag, .styleClass (names.tagOf i) :: listeners (d.eventsOf i)⟩ (chars n.name.toList)
  text_owned : ∀ i styleClass element n,
    Blueprint.text i styleClass element n ∈ d.root.elements →
      scene.Innermost o r d.origin i ∧ scene.get? i = some ⟨n, none⟩ ∧
        n.characters.isSome = true ∧ styleClass = names.tagOf i
  label_owned : ∀ i styleClass name, Blueprint.label i styleClass name ∈ d.root.elements →
    scene.Innermost o r d.origin i ∧ styleClass = names.tagOf i ∧
      ∃ n, scene.get? i = some ⟨n, none⟩ ∧ n.characters = none ∧ n.name = name

end Descriptor

namespace Tree

variable {o : Options} {s : Snapshot} {t : Tree}

theorem innermost_of_mem_elements {scene : Scene} (hf : scene.Forest) (hsh : scene.Shows t)
    {site : Site} (hs : site ∈ t.sites o) {b : Blueprint} {i : NodeId} {styleClass : String}
    (hb : b ∈ (site.describe (t.environment o s)).root.elements)
    (hc : b.classed? = some (i, styleClass)) :
    scene.Innermost o t.id site.tree.id i ∧ styleClass = (t.plan o s).tagOf i := by
  refine ⟨?_, class_eq_of_mem_elements hb hc⟩
  have hmem : (i, styleClass) ∈ (site.describe (t.environment o s)).root.classed :=
    List.mem_filterMap.mpr ⟨b, hb, hc⟩
  rw [classed_root] at hmem
  obtain ⟨n, hn, he⟩ := List.mem_map.mp hmem
  obtain ⟨rfl, -⟩ := Prod.mk.inj he
  exact hsh.innermost_of_mem_owned hf hs hn

theorem exists_reads_of_text {site : Site} (hs : site ∈ t.sites o) {i : NodeId}
    {styleClass element : String} {n : Node} {characters : String}
    (hc : n.characters = some characters)
    (hb : Blueprint.text i styleClass element n ∈
      (site.describe (t.environment o s)).root.elements) :
    ∃ items, TextItems s (t.plan o s) n characters items ∧
      Reads (Piece.printAll (Piece.ofText s (t.plan o s) n)).toList items ∧
      expressions items =
        ((Piece.ofText s (t.plan o s) n).filterMap Piece.member?).map memberExpression :=
  exists_reads_ofText (lettered_plan o s t) hc fun _ ha => exists_lookup_of_text hs hb ha

/-- All of the text in the markup of a component can be read. -/
theorem legible_markup {scene : Scene} (hsh : scene.Shows t) {site : Site} (hs : site ∈ t.sites o)
    {m : Markup}
    (hm : m ∈ ((site.describe (t.environment o s)).markup s (t.plan o s)).elements) :
    m.Legible := by
  refine Descriptor.legible_of_mem_elements (fun i styleClass element n hb => ?_) hm
  obtain ⟨characters, hc⟩ :=
    Option.isSome_iff_exists.mp (get?_of_text (shows_of_mem_sites hsh hs) hb).2
  obtain ⟨items, -, hreads⟩ := exists_reads_of_text hs hc hb
  exact ⟨items, hreads⟩

theorem showsTexts_of_mem_sites {scene : Scene} (hf : scene.Forest) (hsh : scene.Shows t)
    {site : Site} (hs : site ∈ t.sites o) :
    (site.describe (t.environment o s)).ShowsTexts scene o t.id s (t.plan o s) := by
  set d := site.describe (t.environment o s)
  set names := t.plan o s
  have hshows := shows_of_mem_sites hsh hs
  have hcontent : ∀ m ∈ (d.markup s names).elements, m.Legible := fun m hm =>
    legible_markup hsh hs hm
  have hnames : ∀ m ∈ (d.markup s names).elements, ∀ name ∈ m.names, Lettered name :=
    fun m hm => lettered_markup site names hm
  have hmarkup : ∀ {b}, b ∈ d.root.elements → ∃ inButton,
      d.markupOf (Piece.ofText s names) inButton b ∈ (d.markup s names).elements :=
    fun hb => Descriptor.exists_markup_of_element false hb
  have howned : ∀ {i n}, scene.Innermost o t.id d.origin i → scene.get? i = some ⟨n, none⟩ →
      (i, n) ∈ site.tree.owned o := by
    intro i n hin hn
    refine (hsh.mem_owned hf hs).mpr ⟨hin, ?_⟩
    rw [Scene.node?, hn, Option.map_some]
  constructor
  case text =>
    intro i n characters hin hn hc
    have hb : Blueprint.text i (names.tagOf i) o.textElement.tag n ∈ d.root.elements :=
      text_mem_elements hshows hn (howned hin hn) hc
    obtain ⟨items, hitems, hread, -⟩ := exists_reads_of_text hs hc hb
    obtain ⟨inButton, hm⟩ := hmarkup hb
    exact ⟨Text.spells_segments characters, _, _, items, hb, hitems,
      Markup.readsInside_print hnames hcontent hm hread⟩
  case label =>
    intro i n hin hn hc
    have hb : Blueprint.label i (names.tagOf i) n.name ∈ d.root.elements :=
      label_mem_elements hshows hn (howned hin hn) hc
    obtain ⟨inButton, hm⟩ := hmarkup hb
    refine ⟨_, hb, Markup.readsInside_print hnames hcontent hm ?_⟩
    rw [Piece.printAll_singleton]
    exact Piece.reads_literal n.name
  case text_owned =>
    intro i styleClass element n hb
    obtain ⟨hin, hclass⟩ := innermost_of_mem_elements hf hsh hs hb rfl
    obtain ⟨hn, hc⟩ := get?_of_text hshows hb
    exact ⟨hin, hn, hc, hclass⟩
  case label_owned =>
    intro i styleClass name hb
    obtain ⟨hin, hclass⟩ := innermost_of_mem_elements hf hsh hs hb rfl
    exact ⟨hin, hclass, exists_get?_of_label hshows hb⟩

end Tree

namespace Scene

/-- Every text of a scene, and every name that stands for one, is read off the markup unchanged. -/
theorem components_show_texts {scene : Scene} (hb : scene.Built) {r : NodeId}
    (hr : scene.root = some r) (s : Snapshot) (o : Options) :
    ∃ t, scene.rootTree? = some t ∧ scene.components s o = .ok (t.components o s) ∧
      ∀ d ∈ t.components o s, d.ShowsTexts scene o r s (t.plan o s) := by
  have hf := hb.forest
  obtain ⟨t, ht, hsh, rfl⟩ := hf.rootTree?_shows hr
  refine ⟨t, ht, components_of_rootTree? ht s o, fun d hd => ?_⟩
  obtain ⟨site, hs, rfl⟩ := List.mem_map.mp hd
  exact Tree.showsTexts_of_mem_sites hf hsh hs

/-- A bill with a price, and with a rule whose name says more than a name should. A dollar sign
stands in front of the placeholder. -/
def billPage : Scene :=
  let bill := empty.addRoot (.ofNode (.plain .frame "Bill"))
  let price := bill.addChild 0 (.ofNode { Node.plain .text "Price" with
    characters := some "\x60$\x7b\x7b price \x7d\x7d\x60 \\ $\x7btax\x7d" })
  price.addChild 0 (.ofNode (.plain .shape "\\\x60$\x7brule\x7d\x60"))

theorem billPage_built : billPage.Built :=
  ((Built.empty.addRoot (Slot.fresh_ofNode _)).addChild (Slot.fresh_ofNode _) (by decide)).addChild
    (Slot.fresh_ofNode _) (by decide)

theorem billPage_components_show_texts :
    let o : Options := ⟨.single, .isolated, .inline⟩
    billPage.Built ∧ billPage.root = some 0 ∧
      ∃ t, billPage.rootTree? = some t ∧
        billPage.components .empty o = .ok (t.components o .empty) ∧
        ∀ d ∈ t.components o .empty, d.ShowsTexts billPage o 0 .empty (t.plan o .empty) :=
  ⟨billPage_built, rfl, components_show_texts billPage_built (r := 0) rfl .empty _⟩

end Scene

end DesignComponents
