import DesignComponents.Proofs.Component.Enumeration

/-! The scopes of properties as paths of the scene. Scopes are handed down through trees and into
nested components; at every node they resolve a key as the walk up to the root does, which stops
at the first node that has the key. So the default of a property is that of the first node of
the component that refers to it. -/

namespace DesignComponents

/-- The property that a node has for a key: a value that it sets, or else one that it defines. -/
def Node.property? (n : Node) (key : String) : Option PropertyValue :=
  (n.values.find? key).or (n.definitions.find? key)

/-- Nodes that open no frame have no property, so skipping them changes nothing. -/
theorem Scope.resolve_enter (scope : Scope) (n : Node) (key : String) :
    (scope.enter n).resolve key = (n.property? key).or (scope.resolve key) := by
  rw [enter]
  split_ifs with h
  · obtain ⟨hv, hd⟩ := Bool.and_eq_true_iff.mp h
    rw [Node.property?, OrderedMap.find?_eq_none_of_isEmpty hv, OrderedMap.find?_eq_none_of_isEmpty hd]
    rfl
  · rw [resolve, List.findSome?_cons]
    cases hv : n.property? key with
    | some value => rw [show Frame.resolve ⟨n.values, n.definitions⟩ key = some value from hv]; rfl
    | none => rw [show Frame.resolve ⟨n.values, n.definitions⟩ key = none from hv]; rfl

/-! ### Types and defaults -/

/-- Type and default of a property by the value that it has, if any. -/
inductive Gives : Option PropertyValue → PropertyType → Default → Prop
  | flag (b : Bool) : Gives (some ⟨.boolean, .bool b⟩) .boolean (.flag b)
  | noFlag {v : Json} (hv : ∀ b, v ≠ .bool b) : Gives (some ⟨.boolean, v⟩) .boolean (.flag false)
  | string {kind : PropertyKind} (hk : kind ≠ .boolean) (s : String) :
      Gives (some ⟨kind, .string s⟩) .string (.text s)
  | null {kind : PropertyKind} (hk : kind ≠ .boolean) : Gives (some ⟨kind, .null⟩) .string (.text "")
  | compact {kind : PropertyKind} {v : Json} (hk : kind ≠ .boolean) (hs : ∀ s, v ≠ .string s)
      (hn : v ≠ .null) : Gives (some ⟨kind, v⟩) .string (.text v.compact)
  | missing : Gives none .string (.text "")

/-- Only the flags have a type of their own. -/
theorem propertyDefault_of_ne_boolean {kind : PropertyKind} (hk : kind ≠ .boolean) (v : Json) :
    propertyDefault (some ⟨kind, v⟩) = propertyDefault (some ⟨.text, v⟩) := by
  cases kind with
  | boolean => exact absurd rfl hk
  | _ => cases v <;> rfl

theorem gives_propertyDefault (value : Option PropertyValue) :
    Gives value (propertyDefault value).1 (propertyDefault value).2 := by
  rcases value with - | ⟨kind, v⟩
  · exact .missing
  · by_cases hk : kind = .boolean
    · subst hk
      cases v with
      | bool b => exact .flag b
      | _ => exact .noFlag (by simp)
    · rw [propertyDefault_of_ne_boolean hk]
      cases v with
      | string s => exact .string hk s
      | null => exact .null hk
      | _ => exact .compact hk (by simp) (by simp)

theorem Gives.propertyDefault_eq {value : Option PropertyValue} {type : PropertyType}
    {default : Default} (h : Gives value type default) : propertyDefault value = (type, default) := by
  cases h with
  | flag b => rfl
  | noFlag hv =>
    rename_i v
    cases v with
    | bool b => exact absurd rfl (hv b)
    | _ => rfl
  | string hk s => exact propertyDefault_of_ne_boolean hk _
  | null hk => exact propertyDefault_of_ne_boolean hk _
  | compact hk hs hn =>
    rename_i v
    rw [propertyDefault_of_ne_boolean hk]
    cases v with
    | string s => exact absurd rfl (hs s)
    | null => exact absurd rfl hn
    | _ => rfl
  | missing => rfl

namespace Scene

/-! ### Walking up -/

variable {s : Scene} {r : NodeId}

/-- What a key has at a node: the property of the first node that has one on the path from the
node up to the root, and none if there is no such node. -/
inductive Inherits (s : Scene) (r : NodeId) (key : String) : NodeId → Option PropertyValue → Prop
  | own {i : NodeId} {node : Node} {value : PropertyValue} (hn : s.node? i = some node)
      (hv : node.property? key = some value) : Inherits s r key i (some value)
  | parent {p i : NodeId} {node : Node} {value : Option PropertyValue} (hn : s.node? i = some node)
      (hv : node.property? key = none) (hp : s.Lists p i) (h : Inherits s r key p value) :
      Inherits s r key i value
  | root {node : Node} (hn : s.node? r = some node) (hv : node.property? key = none) :
      Inherits s r key r none

namespace Inherits

variable {key : String} {i : NodeId} {node : Node} {value value' : Option PropertyValue}

theorem eq_of_property? (h : s.Inherits r key i value) (hn : s.node? i = some node)
    {v : PropertyValue} (hv : node.property? key = some v) : value = some v := by
  cases h with
  | own hn' hv' =>
    obtain rfl := Option.some.inj (hn.symm.trans hn')
    exact hv'.symm.trans hv
  | parent hn' hv' | root hn' hv' =>
    obtain rfl := Option.some.inj (hn.symm.trans hn')
    exact absurd (hv.symm.trans hv') (by simp)

theorem above (h : s.Inherits r key i value) (hn : s.node? i = some node)
    (hv : node.property? key = none) :
    (∃ p, s.Lists p i ∧ s.Inherits r key p value) ∨ i = r ∧ value = none := by
  cases h with
  | own hn' hv' =>
    obtain rfl := Option.some.inj (hn.symm.trans hn')
    exact absurd (hv.symm.trans hv') (by simp)
  | parent _ _ hp h => exact .inl ⟨_, hp, h⟩
  | root => exact .inr ⟨rfl, rfl⟩

/-- There is one path up, and its first node with the key is determined. -/
theorem unique (hf : s.Forest) (hr : s.root = some r) (h : s.Inherits r key i value)
    (h' : s.Inherits r key i value') : value = value' := by
  induction h with
  | own hn hv => exact (h'.eq_of_property? hn hv).symm
  | parent hn hv hp _ ih =>
    rcases h'.above hn hv with ⟨p', hp', h'⟩ | ⟨rfl, -⟩
    · obtain rfl := hf.parent_unique hp hp'
      exact ih h'
    · exact absurd hp (hf.root_top hr _)
  | root hn hv =>
    rcases h'.above hn hv with ⟨p', hp', -⟩ | ⟨-, rfl⟩
    · exact absurd hp' (hf.root_top hr _)
    · rfl

end Inherits

/-- The scope at a tree of a scene resolves every key as the path above its node does. -/
structure Scoped (s : Scene) (r : NodeId) (scope : Scope) (t : Tree) : Prop where
  shows : s.Shows t
  inherits : ∀ key, s.Inherits r key t.id ((scope.enter t.node).resolve key)

namespace Scoped

theorem root {t : Tree} (h : s.Shows t) : s.Scoped t.id .empty t where
  shows := h
  inherits := by
    intro key
    rw [Scope.resolve_enter]
    cases hv : t.node.property? key with
    | some value => exact .own h.node?_eq hv
    | none => exact .root h.node?_eq hv

/-- A child looks at its own properties first and then at what its parent sees. -/
theorem child {scope : Scope} {id : NodeId} {node : Node} {children : List Tree}
    (h : s.Scoped r scope (.branch id node children)) {c : Tree} (hc : c ∈ children) :
    s.Scoped r (scope.enter node) c where
  shows := h.shows.of_mem hc
  inherits := by
    intro key
    have hnode := (h.shows.of_mem hc).node?_eq
    rw [Scope.resolve_enter]
    cases hv : c.node.property? key with
    | some value => exact .own hnode hv
    | none => exact .parent hnode hv (h.shows.mem_childrenOf hc) (h.inherits key)

theorem of_mem_spots {scope : Scope} {t : Tree} (h : s.Scoped r scope t) {spot : Site}
    (hs : spot ∈ t.spots scope) : s.Scoped r spot.scope spot.tree := by
  induction t generalizing scope with
  | leaf id node =>
    rw [Tree.spots_leaf, List.mem_singleton] at hs
    subst hs
    exact h
  | branch id node children ih =>
    rw [Tree.spots_branch, List.mem_cons, List.mem_flatMap] at hs
    rcases hs with rfl | ⟨c, hc, hs⟩
    · exact h
    · exact ih c hc (h.child hc) hs

end Scoped

end Scene

/-! ### The first reference -/

namespace Draft

/-- What a text is bound to is a property, or it has no type and no default of its own. -/
theorem mem_ofBinding_cases {scope : Scope} {b : Binding} {d : Draft} (hd : d ∈ ofBinding scope b) :
    (∃ key, b = .property key ∧ d = property scope key) ∨
      ∃ source label, (∀ key, source ≠ .property key) ∧ d = text source label := by
  cases b with
  | placeholders segments =>
    obtain ⟨segment, -, hs⟩ := List.mem_filterMap.mp hd
    cases segment with
    | literal _ => cases hs
    | placeholder body => exact .inr ⟨_, _, by simp, (Option.some.inj hs).symm⟩
  | property key => exact .inl ⟨key, rfl, List.mem_singleton.mp hd⟩
  | «variable» id name => exact .inr ⟨_, _, by simp, List.mem_singleton.mp hd⟩
  | literal _ => cases hd

end Draft

namespace Site

variable {s : Snapshot} {spot : Site}

/-- The properties that a node draws on are those that it refers to; nothing else that it draws
on has a type and a default of its own. -/
theorem mem_own_cases {d : Draft} (hd : d ∈ spot.own s) :
    (∃ key ∈ spot.tree.node.references.values,
        d = Draft.property (spot.scope.enter spot.tree.node) key) ∨
      ∃ source label, (∀ key, source ≠ .property key) ∧ d = Draft.text source label := by
  rcases List.mem_append.mp hd with hd | hd
  · obtain ⟨key, hkey, rfl⟩ := List.mem_map.mp hd
    exact .inl ⟨key, hkey, rfl⟩
  · split_ifs at hd with htext
    · obtain ⟨text, ht⟩ := Option.isSome_iff_exists.mp htext
      have hfits := Binding.fits_classify (s := s) (characters_of_text? ht)
      rcases Draft.mem_ofBinding_cases hd with ⟨key, hb, rfl⟩ | hother
      · rw [hb] at hfits
        cases hfits with
        | property hp hr => exact .inl ⟨key, OrderedMap.mem_values_of_find? hr, rfl⟩
      · exact .inr hother
    · cases hd

end Site

/-- The token of a property comes from the first node that refers to the property. -/
theorem Tree.exists_first_reference {e : Environment} {scope : Scope} {t : Tree} {k : Token}
    (hk : k ∈ t.properties e scope) {key : String} (hs : k.source = .property key) :
    ∃ before spot after, t.spots scope = before ++ spot :: after ∧
      key ∈ spot.tree.node.references.values ∧
      (∀ earlier ∈ before, key ∉ earlier.tree.node.references.values) ∧
      k = (Draft.property (spot.scope.enter spot.tree.node) key).named e.names := by
  rw [properties_eq_firsts] at hk
  obtain ⟨before, spot, after, hspots, hmem, hbefore⟩ := exists_first_of_mem_firsts hk
  obtain ⟨d, hd, rfl⟩ := List.mem_map.mp hmem
  rcases Site.mem_own_cases hd with ⟨key', hkey, rfl⟩ | ⟨source, label, hne, rfl⟩
  · obtain rfl : key' = key := Source.property.inj hs
    refine ⟨before, spot, after, hspots, hkey, fun earlier he hkey' => ?_, rfl⟩
    -- an earlier node that refers to the key has a token of the same name
    exact hbefore earlier he (List.mem_map.mpr
      ⟨_, List.mem_map_of_mem (Site.property_mem_own (s := e.snapshot) hkey'), rfl⟩)
  · exact absurd hs (hne key)

namespace Scene

variable {s : Scene}

/-- Whether any field of a node refers to a property key. -/
def refersTo (s : Scene) (key : String) (i : NodeId) : Bool :=
  (s.node? i).any fun node => key ∈ node.references.values

/-- The first node of a subtree, in depth-first order, that refers to a property key. -/
def firstReference? (s : Scene) (start : NodeId) (key : String) : Option NodeId :=
  (s.descendants s.size start).find? (s.refersTo key)

theorem Shows.refersTo_iff {t : Tree} (h : s.Shows t) {key : String} :
    s.refersTo key t.id = true ↔ key ∈ t.node.references.values := by
  simp [refersTo, h.node?_eq]

/-- A property has the type and the default of what its key has at the first node of the tree
that refers to it. -/
theorem Scoped.exists_firstReference (hf : s.Forest) {r : NodeId} {scope : Scope} {t : Tree}
    (h : s.Scoped r scope t) {e : Environment} {k : Token} (hk : k ∈ t.properties e scope)
    {key : String} (hs : k.source = .property key) :
    ∃ n value, s.firstReference? t.id key = some n ∧ s.Inherits r key n value ∧
      Gives value k.type k.default := by
  obtain ⟨before, spot, after, hspots, hkey, hbefore, rfl⟩ := Tree.exists_first_reference hk hs
  have hscoped : ∀ spot' ∈ before ++ spot :: after, s.Scoped r spot'.scope spot'.tree :=
    fun spot' hs => h.of_mem_spots (by rw [hspots]; exact hs)
  have hspot := hscoped spot (by simp)
  refine ⟨spot.tree.id, _, ?_, hspot.inherits key, gives_propertyDefault _⟩
  rw [firstReference?, h.shows.descendants_eq hf (Nat.le_refl _), ← Tree.map_id_spots scope, hspots,
    List.map_append, List.map_cons, List.find?_eq_some_iff_append]
  refine ⟨hspot.shows.refersTo_iff.mpr hkey, _, _, rfl, ?_⟩
  intro i hi
  obtain ⟨earlier, he, rfl⟩ := List.mem_map.mp hi
  have hearlier := (hscoped earlier (List.mem_append_left _ he)).shows
  simpa using mt hearlier.refersTo_iff.mp (hbefore earlier he)

theorem Scoped.of_mem_sites {t : Tree} (h : s.Shows t) {o : Options} {site : Site}
    (hs : site ∈ t.sites o) : s.Scoped t.id site.scope site.tree :=
  (Scoped.root h).of_mem_spots (Tree.sites_subset_spots o t hs)

/-- In every component the default of a property is lexically scoped by the scene: at the first
node of the component's subtree that refers to the key, the path up to the root has at most one
value for it, and the type and the default of the property are those of that value. -/
theorem property_defaults_scoped {scene : Scene} (hb : scene.Built) {r : NodeId}
    (hr : scene.root = some r) (s : Snapshot) (o : Options) :
    ∃ ds, scene.components s o = .ok ds ∧
      ∀ d ∈ ds, ∀ k ∈ d.properties, ∀ key, k.source = .property key →
        ∃ n value, scene.firstReference? d.origin key = some n ∧ scene.Inherits r key n value ∧
          (∀ value', scene.Inherits r key n value' → value' = value) ∧
          Gives value k.type k.default := by
  have hf := hb.forest
  obtain ⟨t, ht, hsh, rfl⟩ := hf.rootTree?_shows hr
  refine ⟨t.components o s, components_of_rootTree? ht s o, fun d hd k hk key hs => ?_⟩
  obtain ⟨site, hsite, rfl⟩ := List.mem_map.mp hd
  obtain ⟨n, value, hn, hv, hg⟩ := (Scoped.of_mem_sites hsh hsite).exists_firstReference hf hk hs
  exact ⟨n, value, hn, hv, fun value' hv' => hv'.unique hf hr hv, hg⟩

/-- A page that defines a label, with a heading and a card. Both texts refer to the label, which
the card sets for itself. -/
def labelPage : Scene :=
  let label := "Label#1:0"
  let refers : OrderedMap String String := .ofList [("characters", label)]
  let page := empty.addRoot (.ofNode { Node.plain .component "Page" with
    definitions := .ofList [(label, ⟨.text, .string "Outer"⟩)] })
  let heading := page.addChild 0 (.ofNode { Node.plain .text "Heading" with
    characters := some "Hi", references := refers })
  let card := heading.addChild 0 (.ofNode { Node.plain .componentInstance "Card" with
    values := .ofList [(label, ⟨.text, .string "Inner"⟩)] })
  card.addChild 2 (.ofNode { Node.plain .text "Caption" with
    characters := some "Hello", references := refers })

theorem labelPage_built : labelPage.Built :=
  (((Built.empty.addRoot (Slot.fresh_ofNode _)).addChild (Slot.fresh_ofNode _) (by decide)).addChild
    (Slot.fresh_ofNode _) (by decide)).addChild (Slot.fresh_ofNode _) (by decide)

theorem labelPage_property_defaults_scoped :
    labelPage.Built ∧ labelPage.root = some 0 ∧
      ∃ ds, labelPage.components .empty ⟨.multi, .flat, .inline⟩ = .ok ds ∧
        ∀ d ∈ ds, ∀ k ∈ d.properties, ∀ key, k.source = .property key →
          ∃ n value, labelPage.firstReference? d.origin key = some n ∧
            labelPage.Inherits 0 key n value ∧
            (∀ value', labelPage.Inherits 0 key n value' → value' = value) ∧
            Gives value k.type k.default :=
  ⟨labelPage_built, rfl, property_defaults_scoped labelPage_built (r := 0) rfl _ _⟩

end Scene

end DesignComponents
