import DesignComponents.Proofs.Collections
import DesignComponents.Proofs.Markup.Names

/-! The attributes of elements. No element has an attribute twice as it is written. HTML takes names
for the same that differ only in the case of ASCII letters, and keeps the first of them: classes
and listeners always stay, but a passed property gets lost where the nested component declares
another one that differs from it in case only. -/

namespace DesignComponents

open Identifier (Lettered Table)

/-- A name as HTML compares it, with small ASCII letters. -/
def folded (name : String) : String := String.ofList (name.toList.map Char.toLower)

namespace Attribute

/-- The name of an attribute. -/
def key : Attribute → String
  | styleClass _ => "class"
  | listener event _ => "@" ++ event
  | binding name => "." ++ name

/-- What is written for the value of an attribute. -/
def value : Attribute → String
  | styleClass value => "\"" ++ value ++ "\""
  | listener _ handler => substitution handler
  | binding name => substitution name

/-- The property that an attribute passes on. -/
def passed? : Attribute → Option String
  | binding name => some name
  | _ => none

theorem print_eq (a : Attribute) : a.print = " " ++ a.key ++ "=" ++ a.value := by
  rw [← String.toList_inj]
  cases a <;> simp [print, key, value]

end Attribute

/-! ### Reading the names of attributes -/

/-- The names of the attributes in an open tag: behind every blank, what stands in front of the next
equals sign. -/
def keysIn : List Char → List String
  | [] => []
  | ' ' :: cs => String.ofList (cs.takeWhile (· ≠ '=')) :: keysIn cs
  | _ :: cs => keysIn cs

theorem keysIn_append {word : List Char} (h : ' ' ∉ word) (rest : List Char) :
    keysIn (word ++ rest) = keysIn rest := by
  induction word with
  | nil => rfl
  | cons c word ih =>
    rw [List.mem_cons, not_or] at h
    rw [List.cons_append, keysIn, ih h.2]
    exact fun hc => h.1 hc.symm

theorem blank_notMem_substitution {name : String} (h : Lettered name) :
    ' ' ∉ (substitution name).toList := by
  have hname : ' ' ∉ name.toList := h.notMem (by decide)
  simp [substitution, hname]

namespace Attribute

theorem blank_notMem {a : Attribute} (h : ∀ name ∈ a.names, Lettered name) :
    ' ' ∉ a.key.toList ∧ ' ' ∉ a.value.toList := by
  cases a with
  | styleClass value =>
    have hvalue : ' ' ∉ value.toList := (h value (by simp [names])).notMem (by decide)
    have hkey : ' ' ∉ "class".toList := by decide
    exact ⟨hkey, by simp [Attribute.value, hvalue]⟩
  | listener event handler =>
    have hevent : ' ' ∉ event.toList := (h event (by simp [names])).notMem (by decide)
    exact ⟨by simp [key, hevent], blank_notMem_substitution (h handler (by simp [names]))⟩
  | binding name =>
    have hname := h name (by simp [names])
    have hblank : ' ' ∉ name.toList := hname.notMem (by decide)
    exact ⟨by simp [key, hblank], blank_notMem_substitution hname⟩

theorem equals_notMem_key {a : Attribute} (h : ∀ name ∈ a.names, Lettered name) :
    '=' ∉ a.key.toList := by
  cases a with
  | styleClass value =>
    have hkey : '=' ∉ "class".toList := by decide
    exact hkey
  | listener event handler =>
    have hevent : '=' ∉ event.toList := (h event (by simp [names])).notMem (by decide)
    simp [key, hevent]
  | binding name =>
    have hname : '=' ∉ name.toList := (h name (by simp [names])).notMem (by decide)
    simp [key, hname]

theorem keysIn_print {a : Attribute} (h : ∀ name ∈ a.names, Lettered name) (rest : List Char) :
    keysIn (a.print.toList ++ rest) = a.key :: keysIn rest := by
  obtain ⟨hkey, hvalue⟩ := blank_notMem h
  have hword : ' ' ∉ a.key.toList ++ '=' :: a.value.toList := by simp [hkey, hvalue]
  have hprint : a.print.toList ++ rest =
      ' ' :: (a.key.toList ++ '=' :: a.value.toList ++ rest) := by
    rw [print_eq]
    simp
  have hstop : ∀ c ∈ a.key.toList, decide (c ≠ '=') = true := fun c hc =>
    decide_eq_true fun he => equals_notMem_key h (he ▸ hc)
  rw [hprint, keysIn, keysIn_append hword, List.append_assoc, List.cons_append,
    List.takeWhile_append_of_pos hstop]
  simp

end Attribute

namespace Markup

/-- The names of an element's attributes. -/
def keys (m : Markup) : List String := m.attributes.map Attribute.key

/-- The properties that an element passes on. -/
def passed (m : Markup) : List String := m.attributes.filterMap Attribute.passed?

/-- The attributes that are left when HTML is parsed. -/
def kept (m : Markup) : List Attribute := firsts (fun a => folded a.key) m.attributes

/-- No two attributes have one name for HTML. -/
def Distinguished (m : Markup) : Prop := (m.keys.map folded).Nodup

theorem keysIn_openTag {m : Markup} (h : ∀ name ∈ m.names, Lettered name) :
    keysIn (openTag m.tag m.attributes).toList = m.keys := by
  have hall : ∀ as : List Attribute, (∀ a ∈ as, ∀ name ∈ a.names, Lettered name) →
      keysIn (String.join (as.map Attribute.print) ++ ">").toList = as.map Attribute.key := by
    intro as has
    induction as with
    | nil => decide
    | cons a as ih =>
      rw [List.forall_mem_cons] at has
      rw [List.map_cons, String.join_cons, String.append_assoc, String.toList_append,
        Attribute.keysIn_print has.1, ih has.2, List.map_cons]
  rw [names, List.forall_mem_cons] at h
  have htag : ' ' ∉ ("<" ++ m.tag).toList := by
    have := h.1.notMem (c := ' ') (by decide)
    simp [this]
  rw [openTag, String.append_assoc, String.toList_append, keysIn_append htag]
  exact hall _ fun a ha name hn => h.2 name (List.mem_flatMap.mpr ⟨a, ha, hn⟩)

theorem kept_eq_iff (m : Markup) : m.kept = m.attributes ↔ m.Distinguished := by
  rw [Distinguished, keys, List.map_map, kept]
  constructor
  · intro h
    exact h ▸ nodup_map_firsts m.attributes
  · exact firsts_eq_self

theorem Distinguished.nodup_keys {m : Markup} (h : m.Distinguished) : m.keys.Nodup := h.of_map

/-- What an element carries, and what HTML makes of it. -/
structure Carries (m : Markup) (ds : List Descriptor) : Prop where
  read_keys : keysIn (openTag m.tag m.attributes).toList = m.keys
  nodup_keys : m.keys.Nodup
  distinguished_iff : m.Distinguished ↔
    ∀ p ∈ m.passed, ∀ q ∈ m.passed, folded p = folded q → p = q
  kept_iff : m.kept = m.attributes ↔ m.Distinguished
  /-- Classes and listeners are never dropped. -/
  own_kept : ∀ a ∈ m.attributes, a.passed? = none → a ∈ m.kept
  passed_eq : m.passed ≠ [] → ∃ nested ∈ ds, m.tag = nested.tag ∧ m.passed = nested.propertyNames

end Markup

/-! ### Passed properties -/

theorem folded_dot (name : String) : folded ("." ++ name) = "." ++ folded name := by
  rw [← String.toList_inj]
  simp [folded]

theorem dot_injective : Function.Injective fun name : String => "." ++ name := by
  intro p q h
  rw [← String.toList_inj]
  simpa using congrArg String.toList h

namespace Markup

variable {m : Markup} {bindings : List String}

theorem passed_of_bindings (h : m.attributes = bindings.map .binding) : m.passed = bindings := by
  rw [passed, h, List.filterMap_map]
  exact List.filterMap_some

theorem nodup_keys_of_bindings (h : m.attributes = bindings.map .binding)
    (hnodup : bindings.Nodup) : m.keys.Nodup := by
  rw [keys, h, List.map_map]
  exact hnodup.map dot_injective

theorem distinguished_of_bindings_iff (h : m.attributes = bindings.map .binding)
    (hnodup : bindings.Nodup) :
    m.Distinguished ↔ ∀ p ∈ bindings, ∀ q ∈ bindings, folded p = folded q → p = q := by
  have hkeys : m.keys.map folded = (bindings.map folded).map fun name => "." ++ name := by
    rw [keys, h, List.map_map, List.map_map, List.map_map]
    exact List.map_congr_left fun name _ => folded_dot name
  rw [Distinguished, hkeys, List.nodup_map_iff dot_injective, List.nodup_map_iff_inj_on hnodup]

/-- An element that stands for a nested component carries its properties. -/
theorem carries_of_bindings {ds : List Descriptor} (h : m.attributes = bindings.map .binding)
    (hread : keysIn (openTag m.tag m.attributes).toList = m.keys) (hnodup : bindings.Nodup)
    {nested : Descriptor} (hnested : nested ∈ ds) (htag : m.tag = nested.tag)
    (hnames : bindings = nested.propertyNames) : m.Carries ds := by
  have hpassed := passed_of_bindings h
  constructor
  case read_keys => exact hread
  case nodup_keys => exact nodup_keys_of_bindings h hnodup
  case distinguished_iff =>
    rw [hpassed]
    exact distinguished_of_bindings_iff h hnodup
  case kept_iff => exact m.kept_eq_iff
  case own_kept =>
    intro a ha hnone
    rw [h] at ha
    obtain ⟨name, -, rfl⟩ := List.mem_map.mp ha
    cases hnone
  case passed_eq => exact fun _ => ⟨nested, hnested, htag, hpassed.trans hnames⟩

end Markup

/-! ### Classes and listeners -/

namespace Trigger

theorem domEvent_inj {k k' : Trigger} (h : k.isExported = true) (h' : k'.isExported = true)
    (he : k.domEvent = k'.domEvent) : k = k' := by
  cases k <;> cases k' <;> simp_all [isExported, domEvent]

theorem folded_listener (k : Trigger) : folded ("@" ++ k.domEvent) = "@" ++ k.domEvent := by
  cases k <;> decide

end Trigger

namespace Markup

variable {m : Markup} {styleClass : String} {events : List Event}

theorem distinguished_of_listeners
    (h : m.attributes = .styleClass styleClass :: Descriptor.listeners events)
    (hnodup : (events.map Event.trigger).Nodup)
    (hexported : ∀ v ∈ events, v.trigger.isExported = true) : m.Distinguished := by
  have hkeys : m.keys.map folded = "class" :: events.map fun v => "@" ++ v.trigger.domEvent := by
    have hclass : folded "class" = "class" := by decide
    rw [keys, h, List.map_map, List.map_cons, Descriptor.listeners, List.map_map]
    refine congrArg₂ List.cons hclass (List.map_congr_left fun v _ => ?_)
    exact v.trigger.folded_listener
  rw [Distinguished, hkeys, List.nodup_cons]
  constructor
  · intro hm
    obtain ⟨v, -, he⟩ := List.mem_map.mp hm
    have hhead := congrArg (fun name => name.toList.head?) he
    simp at hhead
  · refine nodup_map_of_nodup_map hnodup fun v hv v' hv' he => ?_
    have hdom : v.trigger.domEvent = v'.trigger.domEvent := by
      rw [← String.toList_inj]
      simpa using congrArg String.toList he
    exact Trigger.domEvent_inj (hexported v hv) (hexported v' hv') hdom

theorem passed_of_listeners
    (h : m.attributes = .styleClass styleClass :: Descriptor.listeners events) : m.passed = [] := by
  rw [passed, h, List.filterMap_eq_nil_iff, List.forall_mem_cons]
  refine ⟨rfl, fun a ha => ?_⟩
  obtain ⟨v, -, rfl⟩ := List.mem_map.mp ha
  rfl

/-- An element of the component itself carries its class and one listener for each trigger. -/
theorem carries_of_listeners {ds : List Descriptor}
    (h : m.attributes = .styleClass styleClass :: Descriptor.listeners events)
    (hread : keysIn (openTag m.tag m.attributes).toList = m.keys)
    (hnodup : (events.map Event.trigger).Nodup)
    (hexported : ∀ v ∈ events, v.trigger.isExported = true) : m.Carries ds := by
  have hdistinguished := distinguished_of_listeners h hnodup hexported
  have hpassed := passed_of_listeners h
  constructor
  case read_keys => exact hread
  case nodup_keys => exact hdistinguished.nodup_keys
  case distinguished_iff => simp [hdistinguished, hpassed]
  case kept_iff => exact m.kept_eq_iff
  case own_kept => exact fun a ha _ => m.kept_eq_iff.mpr hdistinguished ▸ ha
  case passed_eq => exact fun hne => absurd hpassed hne

end Markup

namespace Tree

variable {o : Options} {s : Snapshot} {t : Tree}

/-- A node has one event for each of its triggers. -/
theorem nodup_triggers_eventsOf {site : Site} (h : site.tree.ids.Nodup) (i : NodeId) :
    (((site.describe (t.environment o s)).eventsOf i).map Event.trigger).Nodup := by
  have hsources : (((site.describe (t.environment o s)).eventsOf i).map Event.source).Nodup := by
    have hall : ((site.tree.events (t.environment o s)).map Event.source).Nodup := by
      rw [map_source_events]
      exact nodup_sources (nodup_owned h o)
    exact hall.sublist (List.filter_sublist.map _)
  refine nodup_map_of_nodup_map hsources fun v hv v' hv' he => Prod.ext ?_ he
  have hi := of_decide_eq_true (List.mem_filter.mp hv).2
  have hi' := of_decide_eq_true (List.mem_filter.mp hv').2
  exact hi.trans hi'.symm

theorem isExported_of_mem_events {e : Environment} {v : Event} (h : v ∈ t.events e) :
    v.trigger.isExported = true := by
  obtain ⟨n, -, hk⟩ := List.mem_flatMap.mp (signal_of_mem_events h).1
  obtain ⟨k, hk, he⟩ := List.mem_map.mp hk
  rw [← (Signal.mk.inj he).2]
  exact (Node.mem_exportedTriggers.mp hk).2

/-- Every element of a component carries either the properties of a nested component or a class and
listeners. -/
theorem carries_of_mem_sites {site : Site} (hs : site ∈ t.sites o) (hsite : site.tree.ids.Nodup)
    {m : Markup}
    (hm : m ∈ ((site.describe (t.environment o s)).markup s (t.plan o s)).elements) :
    m.Carries (t.components o s) := by
  set d := site.describe (t.environment o s)
  have hread := Markup.keysIn_openTag (lettered_markup site (t.plan o s) hm)
  have hclassed : ∀ {styleClass i},
      m.attributes = .styleClass styleClass :: Descriptor.listeners (d.eventsOf i) →
        m.Carries (t.components o s) := fun {_ i} ha =>
    Markup.carries_of_listeners ha hread (nodup_triggers_eventsOf hsite i)
      fun v hv => isExported_of_mem_events (List.mem_filter.mp hv).1
  obtain ⟨b, hb, inButton, rfl⟩ := Descriptor.exists_element_of_markup hm
  cases b with
  | text i styleClass element n => exact hclassed rfl
  | label i styleClass name => exact hclassed rfl
  | container i styleClass children => exact hclassed (by rw [Descriptor.markupOf]; rfl)
  | boundary i tag bindings =>
    obtain ⟨inner, hi, rfl, rfl, rfl⟩ := exists_site_of_boundary hb
    exact Markup.carries_of_bindings rfl hread (nodup_map_name_properties _ _ _)
      (List.mem_map_of_mem (mem_sites_of_nested hs hi)) rfl rfl

end Tree

namespace Scene

/-- No element of a scene's components carries an attribute twice as it is written. As HTML compares
names, it does exactly if it stands for a nested component with two properties whose names differ
in case only, and no other attribute than such a property gets lost. -/
theorem components_carry_attributes {scene : Scene} (hb : scene.Built) {r : NodeId}
    (hr : scene.root = some r) (s : Snapshot) (o : Options) :
    ∃ t, scene.rootTree? = some t ∧ scene.components s o = .ok (t.components o s) ∧
      ∀ d ∈ t.components o s, ∀ m ∈ (d.markup s (t.plan o s)).elements,
        m.Carries (t.components o s) := by
  have hf := hb.forest
  obtain ⟨t, ht, hsh, -⟩ := hf.rootTree?_shows hr
  refine ⟨t, ht, components_of_rootTree? ht s o, fun d hd m hm => ?_⟩
  obtain ⟨site, hs, rfl⟩ := List.mem_map.mp hd
  exact Tree.carries_of_mem_sites hs ((Tree.shows_of_mem_sites hsh hs).nodup_ids hf) hm

/-- A page with a card whose text has two placeholders, one in two words and one in one. -/
def twinPage : Scene :=
  let page := empty.addRoot (.ofNode (.plain .frame "Page"))
  let card := page.addChild 0 (.ofNode (.plain .componentInstance "Card"))
  card.addChild 1 (.ofNode { Node.plain .text "Title" with
    characters := some "\x7b\x7bfoo bar\x7d\x7d \x7b\x7bfoobar\x7d\x7d" })

theorem twinPage_built : twinPage.Built :=
  ((Built.empty.addRoot (Slot.fresh_ofNode _)).addChild (Slot.fresh_ofNode _) (by decide)).addChild
    (Slot.fresh_ofNode _) (by decide)

theorem twinPage_components_carry_attributes :
    let o : Options := ⟨.multi, .isolated, .block⟩
    twinPage.Built ∧ twinPage.root = some 0 ∧
      ∃ t, twinPage.rootTree? = some t ∧
        twinPage.components .empty o = .ok (t.components o .empty) ∧
        ∀ d ∈ t.components o .empty, ∀ m ∈ (d.markup .empty (t.plan o .empty)).elements,
          m.Carries (t.components o .empty) :=
  ⟨twinPage_built, rfl, components_carry_attributes twinPage_built (r := 0) rfl .empty _⟩

/-- The card gets two properties that HTML takes for one, and the second gets lost. -/
theorem twinPage_not_distinguished :
    let o : Options := ⟨.multi, .isolated, .block⟩
    twinPage.Built ∧ ∃ t d m, twinPage.rootTree? = some t ∧
      twinPage.components .empty o = .ok (t.components o .empty) ∧
      (t.components o .empty).head? = some d ∧
      m ∈ (d.markup .empty (t.plan o .empty)).elements ∧
      Markup.openTag m.tag m.attributes =
        "<card-element .fooBar=$\x7bthis.fooBar\x7d .foobar=$\x7bthis.foobar\x7d>" ∧
      m.kept = [.binding "fooBar"] ∧ ¬ m.Distinguished := by
  intro o
  obtain ⟨t, d, m, ht, hd, hm, htag, hattributes⟩ : ∃ t d m, twinPage.rootTree? = some t ∧
      (t.components o .empty).head? = some d ∧
      (d.markup .empty (t.plan o .empty)).elements[1]? = some m ∧
      Markup.openTag m.tag m.attributes =
        "<card-element .fooBar=$\x7bthis.fooBar\x7d .foobar=$\x7bthis.foobar\x7d>" ∧
      m.attributes = [.binding "fooBar", .binding "foobar"] :=
    ⟨_, _, _, rfl, rfl, rfl, by decide +kernel, by decide +kernel⟩
  have hkept : m.kept = [.binding "fooBar"] := by
    rw [Markup.kept, hattributes]
    decide
  refine ⟨twinPage_built, t, d, m, ht, components_of_rootTree? ht .empty o, hd,
    List.mem_of_getElem? hm, htag, hkept, fun h => ?_⟩
  rw [← Markup.kept_eq_iff, hkept, hattributes] at h
  cases h

end Scene

end DesignComponents
