import DesignComponents.Proofs.Component.Sheets
import DesignComponents.Proofs.Component.Tags
import DesignComponents.Proofs.Markup.Layout

/-! Markup as an image of the structural tree. Every element of a component has one element in the
markup, in the same order and with the same elements around it. It keeps its tag or becomes a
button; as an element with events becomes one only where no button is around it, buttons do
not nest. The listeners of all elements are those of the component's events, in their order. -/

namespace DesignComponents

open Identifier (Namespace Table)

namespace Blueprint

/-- The tag of an element before any becomes a button. -/
def element : Blueprint → String
  | boundary _ tag _ => tag
  | text _ _ element _ => element
  | label _ _ _ => division
  | container _ _ _ => division

mutual

/-- Every element behind those around it, and every piece of text with those around it. -/
def nested (textOf : Node → List Piece) (above : List Blueprint) :
    Blueprint → List (List Blueprint × Option Piece)
  | boundary origin tag bindings => [(boundary origin tag bindings :: above, none)]
  | text origin styleClass element node =>
    let chain := text origin styleClass element node :: above
    (chain, none) :: (textOf node).map fun p => (chain, some p)
  | label origin styleClass name =>
    let chain := label origin styleClass name :: above
    [(chain, none), (chain, some (.literal name))]
  | container origin styleClass children =>
    let chain := container origin styleClass children :: above
    (chain, none) :: nestedAll textOf chain children

def nestedAll (textOf : Node → List Piece) (above : List Blueprint) :
    List Blueprint → List (List Blueprint × Option Piece)
  | [] => []
  | b :: bs => nested textOf above b ++ nestedAll textOf above bs

end

theorem nestedAll_eq (textOf : Node → List Piece) (above : List Blueprint) (bs : List Blueprint) :
    nestedAll textOf above bs = bs.flatMap (nested textOf above) := by
  induction bs with
  | nil => rfl
  | cons b bs ih => rw [nestedAll, ih, List.flatMap_cons]

end Blueprint

/-- The attribute that calls the handler of an event. -/
def Event.listener (v : Event) : Attribute := .listener v.trigger.domEvent v.handler

namespace Descriptor

/-- The opening tag that an element gets inside of others. A reference passes bindings on, and any
other element calls the handlers of its events. -/
inductive Opens (d : Descriptor) (around : List Opening) : Blueprint → Opening → Prop
  | boundary (origin : NodeId) {tag : String} (bindings : List String) (h : tag ≠ "button") :
      Opens d around (.boundary origin tag bindings) ⟨tag, bindings.map .binding⟩
  | element {b : Blueprint} {origin : NodeId} {styleClass tag : String}
      (hb : b.classed? = some (origin, styleClass))
      (button_iff : tag = "button" ↔
        (∃ v ∈ d.events, v.origin = origin) ∧ ∀ o ∈ around, o.tag ≠ "button")
      (tag_eq : tag ≠ "button" → tag = b.element) :
      Opens d around b
        ⟨tag, .styleClass styleClass :: (d.events.filter (·.origin = origin)).map Event.listener⟩

/-- Opening tags of an element and of those around it. -/
inductive Mirrors (d : Descriptor) : List Blueprint → List Opening → Prop
  | nil : Mirrors d [] []
  | cons {b : Blueprint} {bs : List Blueprint} {o : Opening} {os : List Opening}
      (h : Mirrors d bs os) (ho : d.Opens os b o) : Mirrors d (b :: bs) (o :: os)

/-- At most one element of a chain is a button. -/
theorem Mirrors.countP_button_le {d : Descriptor} {bs : List Blueprint} {os : List Opening}
    (h : d.Mirrors bs os) : os.countP (·.tag = "button") ≤ 1 := by
  induction h with
  | nil => exact Nat.zero_le _
  | @cons _ _ _ os _ ho ih =>
    cases ho with
    | boundary origin bindings hne => rwa [List.countP_cons_of_neg (by simpa using hne)]
    | @element _ _ _ tag hb button_iff tag_eq =>
      by_cases ht : tag = "button"
      · -- around a button there is none, and at most the button itself counts
        have hnone : os.countP (·.tag = "button") = 0 :=
          List.countP_eq_zero.mpr fun o ho => by simpa using (button_iff.mp ht).2 o ho
        rw [List.countP_cons, hnone]
        split_ifs <;> simp
      · rwa [List.countP_cons_of_neg (by simpa using ht)]

/-- The same place in the blueprint and in the markup: the elements around are mirrored, the piece
of text is the same. -/
structure Matches (d : Descriptor) (x : List Blueprint × Option Piece)
    (y : List Opening × Option Piece) : Prop where
  mirrors : d.Mirrors x.1 y.1
  piece_eq : x.2 = y.2

variable {d : Descriptor} {textOf : Node → List Piece} {inButton : Bool}

theorem forall₂_matches_pieces {bs : List Blueprint} {os : List Opening} (h : d.Mirrors bs os)
    (content : List Piece) :
    List.Forall₂ d.Matches (content.map fun p => (bs, some p))
      (content.map fun p => (os, some p)) := by
  rw [List.forall₂_map_left_iff, List.forall₂_map_right_iff, List.forall₂_same]
  exact fun p _ => ⟨h, rfl⟩

/-- The tag of an element with or without events, inside or outside of a button. -/
def tagIn (d : Descriptor) (inButton : Bool) (origin : NodeId) (element : String) : String :=
  if !(d.eventsOf origin).isEmpty && !inButton then "button" else element

theorem eventsOf_ne_nil_iff {origin : NodeId} :
    d.eventsOf origin ≠ [] ↔ ∃ v ∈ d.events, v.origin = origin := by
  simp [eventsOf, List.filter_eq_nil_iff]

theorem tagIn_eq_button_iff {origin : NodeId} {element : String} (h : element ≠ "button") :
    d.tagIn inButton origin element = "button" ↔ d.eventsOf origin ≠ [] ∧ inButton = false := by
  rw [tagIn]
  split_ifs with hb
  · simpa using hb
  · simpa [h] using hb

/-- Whether there is a button around what is inside of an element. -/
theorem exists_button_cons_iff {os : List Opening}
    (hin : inButton = true ↔ ∃ o ∈ os, o.tag = "button") {origin : NodeId} {element : String}
    (hne : element ≠ "button") (attributes : List Attribute) :
    (inButton || (!(d.eventsOf origin).isEmpty && !inButton)) = true ↔
      ∃ o ∈ ⟨d.tagIn inButton origin element, attributes⟩ :: os, o.tag = "button" := by
  rw [List.exists_mem_cons_iff, tagIn_eq_button_iff hne, ← hin]
  cases inButton <;> simp

theorem Mirrors.cons_tagIn {bs : List Blueprint} {os : List Opening} (h : d.Mirrors bs os)
    (hin : inButton = true ↔ ∃ o ∈ os, o.tag = "button") {b : Blueprint} {origin : NodeId}
    {styleClass : String} (hb : b.classed? = some (origin, styleClass))
    (hne : b.element ≠ "button") :
    d.Mirrors (b :: bs) (⟨d.tagIn inButton origin b.element,
      .styleClass styleClass :: listeners (d.eventsOf origin)⟩ :: os) := by
  refine h.cons (.element hb ?_ ?_)
  · rw [tagIn_eq_button_iff hne, eventsOf_ne_nil_iff, ← Bool.not_eq_true, hin]
    simp
  · intro ht
    rw [tagIn] at ht ⊢
    split_ifs at ht ⊢ with h
    · exact absurd rfl ht
    · rfl

/-- Markup has the elements of its blueprint, each inside of those that it belongs to. -/
theorem matches_markupOf {b : Blueprint} (hne : ∀ b' ∈ b.elements, b'.element ≠ "button")
    {bs : List Blueprint} {os : List Opening} (h : d.Mirrors bs os)
    (hin : inButton = true ↔ ∃ o ∈ os, o.tag = "button") :
    List.Forall₂ d.Matches (b.nested textOf bs) ((d.markupOf textOf inButton b).nested os) := by
  induction b generalizing bs os inButton with
  | boundary origin tag bindings =>
    have hb : tag ≠ "button" := hne _ (List.mem_singleton_self _)
    exact .cons ⟨.cons h (.boundary origin bindings hb), rfl⟩ .nil
  | text origin styleClass element node =>
    have hchain := h.cons_tagIn (b := .text origin styleClass element node) hin rfl
      (hne _ (List.mem_singleton_self _))
    exact .cons ⟨hchain, rfl⟩ (forall₂_matches_pieces hchain (textOf node))
  | label origin styleClass name =>
    have hchain := h.cons_tagIn (b := .label origin styleClass name) hin rfl
      (hne _ (List.mem_singleton_self _))
    exact .cons ⟨hchain, rfl⟩ (forall₂_matches_pieces hchain [.literal name])
  | container origin styleClass children ih =>
    have hself := hne _ (Blueprint.mem_elements_container.mpr (.inl rfl))
    have hchain := h.cons_tagIn (b := .container origin styleClass children) hin rfl hself
    rw [Blueprint.nested, Blueprint.nestedAll_eq, markupOf, Markup.nested, Markup.nestedAll_eq,
      markupOfAll_eq, List.flatMap_map]
    refine .cons ⟨hchain, rfl⟩ ?_
    have hchildren : List.Forall₂ (fun c c' => c ∈ children ∧ c = c') children children :=
      List.forall₂_same.mpr fun c hc => ⟨hc, rfl⟩
    refine List.rel_flatMap hchildren ?_
    rintro c _ ⟨hc, rfl⟩
    exact ih c hc (fun b' hb' => hne b' (Blueprint.mem_elements_container.mpr (.inr ⟨c, hc, hb'⟩)))
      hchain (exists_button_cons_iff hin hself _)

end Descriptor

/-! ### Listeners -/

def Attribute.isListener : Attribute → Bool
  | listener _ _ => true
  | _ => false

/-- The listeners of an opening tag. -/
def Mark.listeners : Mark → List Attribute
  | opening o => o.attributes.filter Attribute.isListener
  | _ => []

theorem Markup.listeners_inline (tag : String) (attributes : List Attribute)
    (content : List Piece) :
    (inline tag attributes content).marks.flatMap Mark.listeners =
      attributes.filter Attribute.isListener := by
  have hpieces : (content.map Mark.piece).flatMap Mark.listeners = [] := by
    rw [List.flatMap_map]
    exact List.flatMap_eq_nil_iff.mpr fun p _ => rfl
  rw [marks, List.flatMap_append, List.flatMap_cons, hpieces, List.flatMap_singleton]
  exact (List.append_nil _).trans (List.append_nil _)

theorem Markup.listeners_block (tag : String) (attributes : List Attribute)
    (children : List Markup) :
    (block tag attributes children).marks.flatMap Mark.listeners =
      attributes.filter Attribute.isListener ++
        children.flatMap fun m => m.marks.flatMap Mark.listeners := by
  rw [marks, marksAll_eq, List.flatMap_append, List.flatMap_cons, List.flatMap_assoc,
    List.flatMap_singleton]
  exact List.append_nil _

namespace Descriptor

variable {d : Descriptor} {textOf : Node → List Piece} {inButton : Bool}

theorem filter_isListener (styleClass : String) (events : List Event) :
    (Attribute.styleClass styleClass :: listeners events).filter Attribute.isListener =
      listeners events := by
  rw [List.filter_cons_of_neg Bool.false_ne_true, List.filter_eq_self]
  intro a ha
  obtain ⟨v, -, rfl⟩ := List.mem_map.mp ha
  rfl

theorem listeners_flatMap {α : Type} (l : List α) (f : α → List Event) :
    listeners (l.flatMap f) = l.flatMap fun a => listeners (f a) := List.map_flatMap

/-- The elements with a class have the listeners of their events, and references have none. -/
theorem listeners_markupOf (b : Blueprint) :
    (d.markupOf textOf inButton b).marks.flatMap Mark.listeners =
      b.classed.flatMap fun n => listeners (d.eventsOf n.1) := by
  induction b generalizing inButton with
  | boundary origin tag bindings =>
    rw [markupOf, Markup.listeners_inline, Blueprint.classed_boundary, List.flatMap_nil,
      List.filter_eq_nil_iff]
    intro a ha
    obtain ⟨name, -, rfl⟩ := List.mem_map.mp ha
    exact Bool.false_ne_true
  | text origin styleClass element node =>
    rw [markupOf, Markup.listeners_inline, filter_isListener]
    exact (List.flatMap_singleton _ _).symm
  | label origin styleClass name =>
    rw [markupOf, Markup.listeners_inline, filter_isListener]
    exact (List.flatMap_singleton _ _).symm
  | container origin styleClass children ih =>
    rw [markupOf, Markup.listeners_block, filter_isListener, markupOfAll_eq, List.flatMap_map,
      Blueprint.classed_container, List.flatMap_cons, List.flatMap_assoc]
    exact congrArg _ (List.flatMap_congr fun c hc => ih c hc)

end Descriptor

namespace Tree

variable {o : Options} {s : Snapshot} {t : Tree}

theorem events_eq (e : Environment) (t : Tree) :
    t.events e = (t.owned e.options).flatMap fun n =>
      n.2.exportedTriggers.map fun k => Signal.named e.names ⟨n.1, k⟩ := by
  rw [events, signals, List.map_flatMap]
  simp only [List.map_map]
  rfl

/-- Node by node, a component has all of its events. -/
theorem flatMap_eventsOf {e : Environment} {site : Site} (h : site.tree.ids.Nodup) :
    (site.tree.owned e.options).flatMap (fun n => (site.describe e).eventsOf n.1) =
      (site.describe e).events := by
  have hevents : (site.describe e).events = _ := events_eq e site.tree
  rw [hevents]
  refine List.flatMap_congr fun n hn => ?_
  rw [Descriptor.eventsOf, hevents]
  refine filter_flatMap_of_nodup (fun m v hv => ?_) (nodup_owned h e.options) hn
  obtain ⟨k, -, rfl⟩ := List.mem_map.mp hv
  rfl

theorem listeners_markup {e : Environment} {site : Site} (h : site.tree.ids.Nodup) (s : Snapshot)
    (names : Table) :
    ((site.describe e).markup s names).marks.flatMap Mark.listeners =
      Descriptor.listeners (site.describe e).events := by
  rw [Descriptor.markup, Descriptor.listeners_markupOf, classed_root, List.flatMap_map,
    ← Descriptor.listeners_flatMap, flatMap_eventsOf h]

theorem nodup_listeners {site : Site} (hs : site ∈ t.sites o) (h : site.tree.ids.Nodup) :
    (Descriptor.listeners (site.describe (t.environment o s)).events).Nodup := by
  have hhandlers := (List.nodup_append.mp (nodup_memberNames hs h (s := s))).2.1
  refine nodup_map_of_nodup_map hhandlers fun v _ v' _ he => ?_
  exact (Attribute.listener.inj he).2

/-! ### Tags -/

/-- No element is a button to begin with. -/
theorem element_ne_button (h : t.ids.Nodup) {site : Site} (hs : site ∈ t.sites o) {b : Blueprint}
    (hb : b ∈ (site.describe (t.environment o s)).root.elements) : b.element ≠ "button" := by
  have hdivision : Blueprint.division ≠ "button" := by decide
  cases b with
  | boundary i tag bindings =>
    obtain ⟨inner, hi, rfl, rfl, -⟩ := exists_site_of_boundary hb
    have hid := id_mem_ids_of_mem_sites (mem_sites_of_nested hs hi)
    have hdash : '-' ∈ ((t.plan o s).tagOf inner.tree.id).toList := dash_mem_tagOf_plan h o s hid
    intro he
    rw [show (t.plan o s).tagOf inner.tree.id = "button" from he] at hdash
    exact absurd hdash (by decide)
  | text i styleClass element n =>
    have he : element = o.textElement.tag := element_eq_of_text hb
    rw [Blueprint.element, he]
    cases o.textElement <;> decide
  | label i styleClass name => exact hdivision
  | container i styleClass children => exact hdivision

end Tree

/-- The markup of a component mirrors its structural tree. -/
structure Descriptor.Mirrored (d : Descriptor) (s : Snapshot) (names : Table) (marks : List Mark) :
    Prop where
  /-- The text is the layout of the marks. -/
  render_eq : d.render s names = Mark.layout 0 none marks
  /-- The marks are balanced, and they stand in each other as the elements do; no button stands in
  a button. -/
  nesting : ∃ spots, Mark.nesting [] marks = some spots ∧
    List.Forall₂ d.Matches (d.root.nested (Piece.ofText s names) []) spots ∧
      ∀ spot ∈ spots, spot.1.countP (·.tag = "button") ≤ 1
  /-- The listeners of all elements together are those of the events, in their order. -/
  listeners_eq : marks.flatMap Mark.listeners = d.events.map Event.listener
  /-- Every event is listened to once, on the one element of its node. -/
  listener_once : ∀ v ∈ d.events, (d.root.classed.map Prod.fst).count v.origin = 1 ∧
    (marks.flatMap Mark.listeners).count v.listener = 1

theorem Tree.mirrored_of_mem_sites {o : Options} {s : Snapshot} {t : Tree} (h : t.ids.Nodup)
    {site : Site} (hs : site ∈ t.sites o) (hsite : site.tree.ids.Nodup) :
    (site.describe (t.environment o s)).Mirrored s (t.plan o s)
      ((site.describe (t.environment o s)).markup s (t.plan o s)).marks := by
  set e := t.environment o s
  set d := site.describe e
  have hmatches : List.Forall₂ d.Matches (d.root.nested (Piece.ofText s (t.plan o s)) [])
      ((d.markup s (t.plan o s)).nested []) :=
    Descriptor.matches_markupOf (fun b hb => element_ne_button h hs hb) .nil (by simp)
  constructor
  case render_eq => exact (d.markup s (t.plan o s)).print_eq_layout
  case nesting =>
    refine ⟨_, Markup.nesting_eq _, hmatches, fun spot hspot => ?_⟩
    obtain ⟨i, hi, rfl⟩ := List.getElem_of_mem hspot
    exact (hmatches.get (hmatches.length_eq ▸ hi) hi).mirrors.countP_button_le
  case listeners_eq => exact listeners_markup hsite s (t.plan o s)
  case listener_once =>
    intro v hv
    constructor
    · obtain ⟨node, hnode⟩ := exists_owned_of_mem_signals (signal_of_mem_events hv).1
      rw [classed_root, List.map_map]
      exact List.count_eq_one_of_mem (nodup_owned hsite o) (List.mem_map_of_mem hnode)
    · rw [listeners_markup hsite]
      exact List.count_eq_one_of_mem (nodup_listeners hs hsite) (List.mem_map_of_mem hv)

namespace Scene

/-- The markup of every component of a scene mirrors its structural tree. -/
theorem components_mirrored {scene : Scene} (hb : scene.Built) {r : NodeId}
    (hr : scene.root = some r) (s : Snapshot) (o : Options) :
    ∃ t, scene.rootTree? = some t ∧ scene.components s o = .ok (t.components o s) ∧
      ∀ d ∈ t.components o s, ∃ marks, d.Mirrored s (t.plan o s) marks := by
  have hf := hb.forest
  obtain ⟨t, ht, hsh, -⟩ := hf.rootTree?_shows hr
  refine ⟨t, ht, components_of_rootTree? ht s o, fun d hd => ?_⟩
  obtain ⟨site, hs, rfl⟩ := List.mem_map.mp hd
  have hsite := (Tree.shows_of_mem_sites hsh hs).nodup_ids hf
  exact ⟨_, Tree.mirrored_of_mem_sites (hsh.nodup_ids hf) hs hsite⟩

theorem cardPage_components_mirrored :
    let o : Options := ⟨.single, .flat, .inline⟩
    cardPage.Built ∧ cardPage.root = some 0 ∧
      ∃ t, cardPage.rootTree? = some t ∧
        cardPage.components .empty o = .ok (t.components o .empty) ∧
        ∀ d ∈ t.components o .empty, ∃ marks, d.Mirrored .empty (t.plan o .empty) marks :=
  ⟨cardPage_built, rfl, components_mirrored cardPage_built (r := 0) rfl .empty _⟩

end Scene

end DesignComponents
