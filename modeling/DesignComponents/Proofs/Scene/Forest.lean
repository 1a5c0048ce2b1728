import DesignComponents.Document.Basic
import Mathlib.Data.List.Basic
import Mathlib.Logic.Relation
import Mathlib.Tactic.Common

/-! Scenes that callers can build. A scene is loaded from a document or grown node by node, each
new child below a node that is there already. Children are then newer than their parents, no
node has two parents, and the root has none. -/

namespace DesignComponents

namespace Slot

/-- A slot that lists no children yet. -/
def Fresh (s : Slot) : Prop := s.children.getD [] = []

theorem fresh_ofNode (n : Node) : (ofNode n).Fresh := by
  cases h : n.kind.isContainer <;> simp [Fresh, ofNode, h]

end Slot

theorem DocumentNode.fresh_slot (n : DocumentNode) : n.slot.Fresh := by
  cases h : n.isContainer <;> simp [Slot.Fresh, slot, h]

namespace Scene

/-- Scenes from a document, and those that grow by new nodes below nodes that are there. -/
inductive Built : Scene → Prop
  | empty : Built empty
  | load (d : Document) : Built d.load.scene
  | addRoot {s : Scene} {slot : Slot} (hs : Built s) (hf : slot.Fresh) : Built (s.addRoot slot)
  | addChild {s : Scene} {slot : Slot} {parent : Nat} (hs : Built s) (hf : slot.Fresh)
      (hp : parent < s.size) : Built (s.addChild parent slot)

/-- A page with a card and a footer; the card has a title and a badge inside. -/
def cardPage : Scene :=
  let page := empty.addRoot (.ofNode (.plain .frame "Page"))
  let card := page.addChild 0
    (.ofNode { Node.plain .componentInstance "Card" with reactions := [.on .click] })
  let title := card.addChild 1
    (.ofNode { Node.plain .text "Title" with characters := some "Hi \x7b\x7bname\x7d\x7d" })
  let badge := title.addChild 1 (.ofNode { Node.plain .frame "Badge" with
    reactions := [.on .hover, .on .hover] })
  badge.addChild 0 (.ofNode { Node.plain .text "Footer" with
    characters := some "-", boundVariable := some "v" })

theorem cardPage_built : cardPage.Built :=
  ((((Built.empty.addRoot (Slot.fresh_ofNode _)).addChild (Slot.fresh_ofNode _) (by decide)).addChild
    (Slot.fresh_ofNode _) (by decide)).addChild (Slot.fresh_ofNode _) (by decide)).addChild
    (Slot.fresh_ofNode _) (by decide)

/-! ### Children after one more node -/

@[simp] theorem size_addRoot (s : Scene) (slot : Slot) : (s.addRoot slot).size = s.size + 1 := by
  simp [addRoot, size]

@[simp] theorem size_addChild (s : Scene) (parent : Nat) (slot : Slot) :
    (s.addChild parent slot).size = s.size + 1 := by
  simp [addChild, size]

theorem get?_eq_none {s : Scene} {i : Nat} (h : s.size ≤ i) : s.get? i = none :=
  Array.getElem?_eq_none h

theorem get?_lt {s : Scene} {i : Nat} {slot : Slot} (h : s.get? i = some slot) : i < s.size := by
  by_contra hi
  rw [get?_eq_none (by omega)] at h
  exact absurd h (by simp)

theorem exists_get? {s : Scene} {i : Nat} (h : i < s.size) : ∃ slot, s.get? i = some slot :=
  ⟨_, Array.getElem?_eq_getElem h⟩

theorem get?_addRoot (s : Scene) (slot : Slot) (i : Nat) :
    (s.addRoot slot).get? i = if i = s.size then some slot else s.get? i := by
  simp only [addRoot, get?, size, Array.getElem?_push]
  rfl

theorem get?_addChild (s : Scene) (parent : Nat) (slot : Slot) (i : Nat) :
    (s.addChild parent slot).get? i =
      if parent = i then (if i = s.size then some slot else s.get? i).map (·.addChild s.size)
      else if i = s.size then some slot else s.get? i := by
  simp only [addChild, get?, size, Array.getElem?_modify, Array.getElem?_push]
  rfl

theorem childrenOf_of_get? {s : Scene} {i : Nat} {slot : Slot} (h : s.get? i = some slot) :
    s.childrenOf i = slot.children.getD [] := by
  simp [childrenOf, h]

theorem childrenOf_eq_nil {s : Scene} {i : Nat} (h : s.size ≤ i) : s.childrenOf i = [] := by
  simp [childrenOf, get?_eq_none h]

theorem childrenOf_addRoot {s : Scene} {slot : Slot} (hf : slot.Fresh) (i : Nat) :
    (s.addRoot slot).childrenOf i = s.childrenOf i := by
  simp only [childrenOf, get?_addRoot]
  by_cases hi : i = s.size
  · have hn : s.get? i = none := get?_eq_none (by omega)
    rw [if_pos hi, hn]
    exact hf
  · rw [if_neg hi]

theorem childrenOf_addChild {s : Scene} {slot : Slot} {parent : Nat} (hf : slot.Fresh)
    (hp : parent < s.size) (i : Nat) :
    (s.addChild parent slot).childrenOf i =
      s.childrenOf i ++ if i = parent then [s.size] else [] := by
  simp only [childrenOf, get?_addChild]
  by_cases hi : i = parent
  · subst hi
    obtain ⟨old, ho⟩ := exists_get? hp
    have hne : i ≠ s.size := by omega
    simp [hne, ho, Slot.addChild]
  · rw [if_neg (Ne.symm hi), if_neg hi, List.append_nil]
    by_cases hs : i = s.size
    · have hn : s.get? i = none := get?_eq_none (by omega)
      rw [if_pos hs, hn]
      exact hf
    · rw [if_neg hs]

/-! ### The invariant -/

/-- The nodes of a scene form a forest in which children are newer than their parents, and the
root is on top. -/
structure Forest (s : Scene) : Prop where
  parent_lt : ∀ {p c : Nat}, c ∈ s.childrenOf p → p < c
  child_lt : ∀ {p c : Nat}, c ∈ s.childrenOf p → c < s.size
  increasing : ∀ p : Nat, (s.childrenOf p).Pairwise (· < ·)
  parent_unique : ∀ {p q c : Nat}, c ∈ s.childrenOf p → c ∈ s.childrenOf q → p = q
  root_lt : ∀ {r : Nat}, s.root = some r → r < s.size
  root_top : ∀ {r : Nat}, s.root = some r → ∀ p : Nat, r ∉ s.childrenOf p

theorem forest_empty : Forest empty := by
  have hc : ∀ p : Nat, empty.childrenOf p = [] := fun p => childrenOf_eq_nil (Nat.zero_le p)
  constructor <;> simp [hc, show empty.root = none from rfl]

theorem Forest.addRoot {s : Scene} {slot : Slot} (h : s.Forest) (hf : slot.Fresh) :
    (s.addRoot slot).Forest := by
  have hc := childrenOf_addRoot (s := s) hf
  constructor
  case parent_lt => intro p c hm; exact h.parent_lt (hc p ▸ hm)
  case child_lt =>
    intro p c hm
    have := h.child_lt (hc p ▸ hm)
    rw [size_addRoot]; omega
  case increasing => intro p; rw [hc]; exact h.increasing p
  case parent_unique => intro p q c hp hq; exact h.parent_unique (hc p ▸ hp) (hc q ▸ hq)
  case root_lt => rintro r ⟨⟩; rw [size_addRoot]; omega
  case root_top =>
    rintro r ⟨⟩ p hm
    exact absurd (h.child_lt (hc p ▸ hm)) (Nat.lt_irrefl _)

/-- The children in a grown scene are the old ones and the new node below its parent. -/
theorem mem_childrenOf_addChild {s : Scene} {slot : Slot} {parent : Nat} (hf : slot.Fresh)
    (hp : parent < s.size) {p c : Nat} :
    c ∈ (s.addChild parent slot).childrenOf p ↔
      c ∈ s.childrenOf p ∨ p = parent ∧ c = s.size := by
  rw [childrenOf_addChild hf hp, List.mem_append]
  split_ifs with h <;> simp [h]

theorem Forest.addChild {s : Scene} {slot : Slot} {parent : Nat} (h : s.Forest)
    (hf : slot.Fresh) (hp : parent < s.size) : (s.addChild parent slot).Forest := by
  have hm {p c : Nat} := mem_childrenOf_addChild hf hp (p := p) (c := c)
  constructor
  case parent_lt =>
    intro p c hc
    rcases hm.mp hc with hc | ⟨rfl, rfl⟩
    · exact h.parent_lt hc
    · exact hp
  case child_lt =>
    intro p c hc
    rw [size_addChild]
    rcases hm.mp hc with hc | ⟨-, rfl⟩
    · have := h.child_lt hc; omega
    · omega
  case increasing =>
    intro p
    rw [childrenOf_addChild hf hp]
    split_ifs
    · refine List.pairwise_append.mpr ⟨h.increasing p, List.pairwise_singleton _ _, ?_⟩
      intro a ha b hb
      rw [List.mem_singleton.mp hb]
      exact h.child_lt ha
    · rw [List.append_nil]; exact h.increasing p
  case parent_unique =>
    intro p q c hc hc'
    rcases hm.mp hc with hc | ⟨hpp, hs⟩ <;> rcases hm.mp hc' with hc' | ⟨hqp, hs'⟩
    · exact h.parent_unique hc hc'
    · have := h.child_lt hc; omega
    · have := h.child_lt hc'; omega
    · exact hpp.trans hqp.symm
  case root_lt =>
    intro r hr
    have := h.root_lt hr
    rw [size_addChild]; omega
  case root_top =>
    intro r hr p hc
    rcases hm.mp hc with hc | ⟨-, he⟩
    · exact h.root_top hr p hc
    · have := h.root_lt hr; omega

/-! ### Loaded scenes -/

end Scene

namespace Document

open Scene (Forest)

mutual

/-- Placing a node keeps the invariant and never shrinks the scene. -/
theorem place_forest (parent : Nat) : ∀ (n : DocumentNode) (g : Growth), g.scene.Forest →
    parent < g.scene.size →
      (place parent n g).scene.Forest ∧ g.scene.size < (place parent n g).scene.size
  | .mk node css none, g, hg, hp => by
    simp only [place, Scene.size_addChild]
    exact ⟨hg.addChild (DocumentNode.fresh_slot _) hp, by omega⟩
  | .mk node css (some ns), g, hg, hp => by
    simp only [place]
    set n := DocumentNode.mk node css (some ns)
    have hf := hg.addChild n.fresh_slot hp
    obtain ⟨hn, hle⟩ := placeAll_forest g.scene.size ns
      ⟨g.scene.addChild parent n.slot, g.styles.push css⟩ hf (by simp)
    simp only [Scene.size_addChild] at hle
    exact ⟨hn, by omega⟩

theorem placeAll_forest (parent : Nat) : ∀ (ns : List DocumentNode) (g : Growth),
    g.scene.Forest → parent < g.scene.size →
      (placeAll parent ns g).scene.Forest ∧ g.scene.size ≤ (placeAll parent ns g).scene.size
  | [], g, hg, _ => ⟨hg, Nat.le_refl _⟩
  | n :: ns, g, hg, hp => by
    obtain ⟨hn, hlt⟩ := place_forest parent n g hg hp
    obtain ⟨hns, hle⟩ := placeAll_forest parent ns (place parent n g) hn (by omega)
    exact ⟨hns, by simp only [placeAll]; omega⟩

end

theorem forest_load (d : Document) : d.load.scene.Forest := by
  simp only [load, growth]
  cases d.root with
  | none => exact Scene.forest_empty
  | some n =>
    have hr := Scene.forest_empty.addRoot n.fresh_slot
    exact (placeAll_forest 0 _ _ hr (by simp)).1

end Document

namespace Scene

theorem Built.forest {s : Scene} (h : s.Built) : s.Forest := by
  induction h with
  | empty => exact forest_empty
  | load d => exact d.forest_load
  | addRoot _ hf ih => exact ih.addRoot hf
  | addChild _ hf hp ih => exact ih.addChild hf hp

end Scene

end DesignComponents
