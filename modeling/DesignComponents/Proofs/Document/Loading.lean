import DesignComponents.Host.Basic
import DesignComponents.Proofs.Collections
import DesignComponents.Proofs.Scene.Traversal

/-! Loaded documents. A scene that is loaded from a document holds the nodes of the document in
depth-first order, so the place of a node is its number in that order. The lists of children
hold the numbers of the children, and the captured answers are those of the document. -/

namespace DesignComponents

namespace DocumentNode

/-- The children; there are none if the list is missing. -/
def childList (n : DocumentNode) : List DocumentNode := n.children.getD []

theorem preorder_eq_cons (n : DocumentNode) : n.preorder = n :: preorderAll n.childList := by
  rcases n with ⟨node, css, - | children⟩ <;> rfl

theorem preorderAll_append (ms ns : List DocumentNode) :
    preorderAll (ms ++ ns) = preorderAll ms ++ preorderAll ns := by
  induction ms with
  | nil => rfl
  | cons m ms ih => rw [List.cons_append, preorderAll, ih, preorderAll, List.append_assoc]

/-- Behind the first of some siblings come its children and then the other siblings. -/
theorem preorderAll_cons (n : DocumentNode) (ns : List DocumentNode) :
    preorderAll (n :: ns) = n :: preorderAll (n.childList ++ ns) := by
  rw [preorderAll, preorder_eq_cons, preorderAll_append, List.cons_append]

/-- Induction over siblings, with the statement for what is below the first one, for the others, and
for both in a row. -/
@[elab_as_elim]
theorem siblings_induct {motive : List DocumentNode → Prop} (nil : motive [])
    (cons : ∀ n ns, motive n.childList → motive ns → motive (n.childList ++ ns) → motive (n :: ns))
    (ns : List DocumentNode) : motive ns := by
  induction hl : (preorderAll ns).length using Nat.strongRecOn generalizing ns with
  | ind l ih =>
    cases ns with
    | nil => exact nil
    | cons n ns =>
      rw [preorderAll_cons, List.length_cons, preorderAll_append, List.length_append] at hl
      refine cons n ns (ih _ ?_ _ rfl) (ih _ ?_ _ rfl) (ih _ ?_ _ rfl)
      · omega
      · omega
      · rw [preorderAll_append, List.length_append]
        omega

/-! ### Numbers in depth-first order -/

/-- The numbers of siblings in depth-first order, if the first of them has the given one. Each comes
behind the sibling before it and all that is below that. -/
def numbers : Nat → List DocumentNode → List NodeId
  | _, [] => []
  | i, n :: ns => i :: numbers (i + n.preorder.length) ns

theorem numbers_append (i : Nat) (ms ns : List DocumentNode) :
    numbers i (ms ++ ns) = numbers i ms ++ numbers (i + (preorderAll ms).length) ns := by
  induction ms generalizing i with
  | nil => rfl
  | cons m ms ih =>
    rw [List.cons_append, numbers, ih, numbers, preorderAll, List.length_append, Nat.add_assoc,
      List.cons_append]

/-- The numbers of siblings, from those of the children of the first one. -/
theorem numbers_cons (i : Nat) (n : DocumentNode) (ns : List DocumentNode) :
    numbers i (n :: ns) = i :: numbers (i + n.preorder.length) ns ∧
      numbers (i + 1) n.childList ++ numbers (i + n.preorder.length) ns =
        numbers (i + 1) (n.childList ++ ns) := by
  refine ⟨rfl, ?_⟩
  rw [numbers_append, preorder_eq_cons, List.length_cons]
  congr 2
  omega

/-- From a node on, the order has the node, all that is below it, and then other nodes. -/
theorem exists_drop_eq {ns : List DocumentNode} {i : Nat} {n : DocumentNode}
    (h : (preorderAll ns)[i]? = some n) :
    ∃ rest, (preorderAll ns).drop i = n :: preorderAll n.childList ++ rest := by
  induction ns using siblings_induct generalizing i with
  | nil => cases i <;> cases h
  | cons m ns _ _ ih =>
    rw [preorderAll_cons] at h ⊢
    cases i with
    | zero =>
      cases h
      exact ⟨preorderAll ns, by rw [List.drop_zero, preorderAll_append, List.cons_append]⟩
    | succ i => exact ih h

/-- At the numbers of siblings stand the siblings. -/
theorem map_getElem?_numbers {nodes : List DocumentNode} {i : Nat} {ns rest : List DocumentNode}
    (h : nodes.drop i = preorderAll ns ++ rest) :
    (numbers i ns).map (fun k => nodes[k]?) = ns.map some := by
  induction ns generalizing i with
  | nil => rfl
  | cons n ns ih =>
    have hfirst : nodes[i]? = some n := by
      rw [← Nat.add_zero i, ← List.getElem?_drop, h, preorderAll_cons]
      rfl
    have hrest : nodes.drop (i + n.preorder.length) = preorderAll ns ++ rest := by
      rw [← List.drop_drop, h, preorderAll, List.append_assoc, List.drop_left]
    rw [numbers, List.map_cons, List.map_cons, hfirst, ih hrest]

/-- What a scene holds for the node with a number. -/
def placed (i : Nat) (n : DocumentNode) : Slot :=
  ⟨n.node, if n.isContainer then some (numbers (i + 1) n.childList) else none⟩

theorem children_isSome_placed (i : Nat) (n : DocumentNode) :
    (n.placed i).children.isSome = true ↔
      n.children.isSome = true ∨ n.node.kind.isContainer = true ∧ n.node.characters = none := by
  have hc : (n.placed i).children.isSome = n.isContainer := by
    rw [placed]
    cases n.isContainer <;> rfl
  rw [hc, isContainer, Bool.or_eq_true, Bool.and_eq_true, Option.isNone_iff_eq_none]

/-- Without a list of children a node has nothing below it, container or not. -/
theorem childrenOf_placed (i : Nat) (n : DocumentNode) :
    (n.placed i).children.getD [] = numbers (i + 1) n.childList := by
  rcases n with ⟨node, css, - | children⟩
  · rw [placed]
    split <;> rfl
  · rfl

/-- A slot that got its children one after the other. -/
theorem foldl_addChild_slot (i : Nat) (n : DocumentNode) :
    (numbers (i + 1) n.childList).foldl Slot.addChild n.slot = n.placed i := by
  have hall : ∀ (ids done : List NodeId), ids.foldl Slot.addChild ⟨n.node, some done⟩ =
      ⟨n.node, some (done ++ ids)⟩ := by
    intro ids
    induction ids with
    | nil =>
      intro done
      rw [List.append_nil]
      rfl
    | cons id ids ih =>
      intro done
      rw [List.foldl_cons, Slot.addChild, ih]
      simp
  by_cases hc : n.isContainer = true
  · rw [slot, if_pos hc, hall, placed, if_pos hc]
    rfl
  · have hbelow : n.childList = [] := by
      rcases n with ⟨node, css, - | children⟩
      · rfl
      · exact absurd rfl hc
    rw [hbelow, slot, placed, if_neg hc, if_neg hc]
    rfl

/-- The slots of siblings and of all that is below them, the first one at a place. -/
def laid (i : Nat) (ns : List DocumentNode) : List Slot :=
  ((preorderAll ns).zipIdx i).map fun e => e.1.placed e.2

theorem length_laid (i : Nat) (ns : List DocumentNode) :
    (laid i ns).length = (preorderAll ns).length := by
  rw [laid, List.length_map, List.length_zipIdx]

theorem laid_cons (i : Nat) (n : DocumentNode) (ns : List DocumentNode) :
    laid i (n :: ns) =
      n.placed i :: laid (i + 1) n.childList ++ laid (i + n.preorder.length) ns := by
  rw [laid, preorderAll, List.zipIdx_append, List.map_append, preorder_eq_cons, List.zipIdx_cons,
    List.map_cons]
  rfl

end DocumentNode

namespace Scene

open DocumentNode (numbers preorderAll)

theorem toList_slots_addChild (s : Scene) {before after : List Slot} {p : Slot}
    (hs : s.slots.toList = before ++ p :: after) (slot : Slot) :
    (s.addChild before.length slot).slots.toList =
      before ++ p.addChild s.size :: (after ++ [slot]) := by
  rw [addChild, Array.toList_modify, Array.toList_push, hs, List.append_assoc, List.cons_append,
    List.modify_eq_take_drop, List.take_left, List.drop_left, List.modifyHead_cons]

/-- A stack of siblings is walked in the order of their numbers. -/
theorem visits_numbers {s : Scene} {i : Nat} {ns : List DocumentNode}
    (h : ∀ k n, (preorderAll ns)[k]? = some n →
      s.childrenOf (i + k) = numbers (i + k + 1) n.childList) :
    s.Visits (numbers i ns) (List.range' i (preorderAll ns).length) := by
  induction ns using DocumentNode.siblings_induct generalizing i with
  | nil => exact .nil
  | cons n ns _ _ ih =>
    obtain ⟨hnumbers, hbelow⟩ := DocumentNode.numbers_cons i n ns
    rw [DocumentNode.preorderAll_cons] at h ⊢
    rw [List.length_cons, List.range'_succ, hnumbers]
    refine .next ?_
    rw [show s.childrenOf i = _ from h 0 n rfl, Nat.add_zero, hbelow]
    refine ih fun k m hm => ?_
    have hk := h (k + 1) m hm
    rwa [← Nat.add_assoc, Nat.add_right_comm] at hk

end Scene

namespace Document

open DocumentNode (laid numbers preorderAll)

/-- All nodes of a document in depth-first order. -/
def nodes (d : Document) : List DocumentNode := preorderAll d.root.toList

/-- The children of a node are placed below it. -/
theorem place_eq (parent : NodeId) (n : DocumentNode) (g : Growth) :
    place parent n g = placeAll g.scene.size n.childList
      ⟨g.scene.addChild parent n.slot, g.styles.push n.css⟩ := by
  rcases n with ⟨node, css, - | children⟩ <;> rfl

/-- Placing siblings lists them below their parent, whose place parts the slots, and adds their
slots and those of all that is below them. -/
theorem slots_placeAll {ns : List DocumentNode} {g : Growth} {i : Nat} {before after : List Slot}
    {p : Slot} (hg : g.scene.slots.toList = before ++ p :: after) (hi : g.scene.size = i) :
    (placeAll before.length ns g).scene.slots.toList =
      before ++ (numbers i ns).foldl Slot.addChild p :: after ++ laid i ns := by
  induction ns using DocumentNode.siblings_induct generalizing g i before after p with
  | nil =>
    rw [placeAll, hg]
    exact (List.append_nil _).symm
  | cons n ns ihbelow ihns _ =>
    rw [placeAll, place_eq, hi]
    set grown : Growth := ⟨g.scene.addChild before.length n.slot, g.styles.push n.css⟩
    have hlen : i = (before ++ p.addChild i :: after).length := by
      rw [← hi, Scene.size, ← Array.length_toList, hg, List.length_append, List.length_append]
      rfl
    -- the new node parts the slots into those that are there and none
    have hgrown : grown.scene.slots.toList = (before ++ p.addChild i :: after) ++ n.slot :: [] := by
      rw [Scene.toList_slots_addChild _ hg, hi, List.append_assoc, List.cons_append]
    have hplaced := ihbelow hgrown ((Scene.size_addChild _ _ _).trans (congrArg (· + 1) hi))
    rw [← hlen, DocumentNode.foldl_addChild_slot] at hplaced
    have hsize : (placeAll i n.childList grown).scene.size = i + n.preorder.length := by
      rw [Scene.size, ← Array.length_toList, hplaced, List.length_append, List.length_append,
        ← hlen, DocumentNode.length_laid, DocumentNode.preorder_eq_cons]
      simp only [List.length_cons, List.length_nil]
      omega
    have hsplit : (placeAll i n.childList grown).scene.slots.toList =
        before ++ p.addChild i :: (after ++ n.placed i :: laid (i + 1) n.childList) := by
      rw [hplaced]
      simp
    rw [ihns hsplit hsize, DocumentNode.laid_cons, numbers, List.foldl_cons]
    simp

theorem styles_placeAll (parent : NodeId) (ns : List DocumentNode) (g : Growth) :
    (placeAll parent ns g).styles.toList =
      g.styles.toList ++ (preorderAll ns).map DocumentNode.css := by
  induction ns using DocumentNode.siblings_induct generalizing parent g with
  | nil => exact (List.append_nil _).symm
  | cons n ns ihbelow ihns _ =>
    rw [placeAll, place_eq, ihns, ihbelow, Array.toList_push, preorderAll,
      DocumentNode.preorder_eq_cons]
    simp

theorem root_placeAll (parent : NodeId) (ns : List DocumentNode) (g : Growth) :
    (placeAll parent ns g).scene.root = g.scene.root := by
  induction ns using DocumentNode.siblings_induct generalizing parent g with
  | nil => rfl
  | cons n ns ihbelow ihns _ => rw [placeAll, place_eq, ihns, ihbelow, Scene.addChild]

/-! ### Loaded scenes -/

/-- The root of a document is the first node of its scene. -/
theorem root_load {d : Document} {n : DocumentNode} (hn : d.root = some n) :
    d.load.scene.root = some 0 := by
  simp only [load, growth, hn]
  exact root_placeAll 0 _ _

theorem slots_load (d : Document) : d.load.scene.slots.toList = laid 0 d.root.toList := by
  rcases d with ⟨- | n, names⟩
  · rfl
  · have hroot : (Scene.empty.addRoot n.slot).slots.toList = [] ++ n.slot :: [] := rfl
    have hplaced : (plant n).scene.slots.toList = _ :=
      slots_placeAll (g := ⟨_, #[n.css]⟩) (i := 0 + 1) hroot rfl
    rw [show n.children.getD [] = n.childList from rfl, DocumentNode.foldl_addChild_slot] at hplaced
    rw [Option.toList_some, DocumentNode.laid_cons]
    exact hplaced.trans (List.append_nil _).symm

theorem styles_growth (d : Document) : d.growth.styles.toList = d.nodes.map DocumentNode.css := by
  rcases d with ⟨- | n, names⟩
  · rfl
  · have hplaced := styles_placeAll 0 n.childList ⟨Scene.empty.addRoot n.slot, #[n.css]⟩
    rw [nodes, Option.toList_some, DocumentNode.preorderAll_cons, List.append_nil]
    exact hplaced

theorem get?_load (d : Document) (i : Nat) :
    d.load.scene.get? i = d.nodes[i]?.map (DocumentNode.placed i) := by
  rw [Scene.get?, ← Array.getElem?_toList, slots_load, laid, List.getElem?_map,
    List.getElem?_zipIdx, Option.map_map, Nat.zero_add]
  rfl

theorem size_load (d : Document) : d.load.scene.size = d.nodes.length := by
  rw [Scene.size, ← Array.length_toList, slots_load, DocumentNode.length_laid, nodes]

theorem childrenOf_load {d : Document} {i : Nat} {n : DocumentNode} (h : d.nodes[i]? = some n) :
    d.load.scene.childrenOf i = numbers (i + 1) n.childList := by
  have hslot : d.load.scene.get? i = some (n.placed i) := by rw [get?_load, h, Option.map_some]
  rw [Scene.childrenOf_of_get? hslot, DocumentNode.childrenOf_placed]

theorem style?_load (d : Document) (i : Nat) :
    d.load.captured.style? i = d.nodes[i]?.map DocumentNode.css := by
  refine Option.ext fun css => ?_
  rw [Snapshot.style?, OrderedMap.find?_eq_some_iff, ← List.getElem?_map, ← styles_growth]
  simp [load, stylesOf, List.mem_zipIdx_iff_getElem?]

/-- The walk from the first place goes through the numbers of the nodes. -/
theorem visits_load {d : Document} (h : d.nodes ≠ []) :
    d.load.scene.Visits [0] (List.range d.nodes.length) := by
  have hnumbers : numbers 0 d.root.toList = [0] := by
    rcases d with ⟨- | n, names⟩
    · exact absurd rfl h
    · rfl
  have hchildren : ∀ k n, d.nodes[k]? = some n →
      d.load.scene.childrenOf (0 + k) = numbers (0 + k + 1) n.childList := by
    intro k n hn
    rw [Nat.zero_add, childrenOf_load hn]
  have hv := Scene.visits_numbers hchildren
  rwa [hnumbers, ← List.range_eq_range'] at hv

/-! ### What a loaded document holds -/

/-- Every node of a document is in the scene at its number in depth-first order, unchanged and with
the numbers of its children, and the host that answers for the scene gives the styles and the
variable names of the document. -/
structure HeldBy (d : Document) (l : LoadedDocument) : Prop where
  size_eq : l.scene.size = d.nodes.length
  root_eq : l.scene.root = if 0 < d.nodes.length then some 0 else none
  slot : ∀ i n, d.nodes[i]? = some n → ∃ children, l.scene.get? i = some ⟨n.node, children⟩ ∧
    (children.isSome = true ↔
      n.children.isSome = true ∨ n.node.kind.isContainer = true ∧ n.node.characters = none) ∧
    ∀ ids, children = some ids →
      ids = numbers (i + 1) n.childList ∧ ids.map (fun k => d.nodes[k]?) = n.childList.map some
  style : ∀ i n, d.nodes[i]? = some n → (Host.ofSnapshot l.captured).style i = .value n.css
  styles_size : l.captured.styles.size = d.nodes.length
  variableName : ∀ v name, (Host.ofSnapshot l.captured).variableName v = .value (some name) ↔
    (v, name) ∈ d.variableNames.entries

theorem heldBy_load (d : Document) : d.HeldBy d.load where
  size_eq := d.size_load
  root_eq := by
    rcases d with ⟨- | n, names⟩
    · rfl
    · rw [root_load (d := ⟨some n, names⟩) rfl, if_pos]
      rw [nodes, Option.toList_some, DocumentNode.preorderAll_cons]
      exact Nat.succ_pos _
  slot i n hn := by
    refine ⟨(n.placed i).children, by rw [get?_load, hn]; rfl, n.children_isSome_placed i, ?_⟩
    intro ids hids
    have hnumbers : ids = numbers (i + 1) n.childList := by
      rw [← n.childrenOf_placed i, hids, Option.getD_some]
    refine ⟨hnumbers, ?_⟩
    obtain ⟨rest, hdrop⟩ := DocumentNode.exists_drop_eq hn
    have hbehind : d.nodes.drop (i + 1) = preorderAll n.childList ++ rest := by
      rw [← List.drop_drop, nodes, hdrop, List.cons_append, List.drop_one, List.tail_cons]
    rw [hnumbers, DocumentNode.map_getElem?_numbers hbehind]
  style i n hn := by
    have hstyle : d.load.captured.style i = n.css := by
      rw [Snapshot.style, style?_load, hn, Option.map_some, Option.getD_some]
    exact congrArg Answer.value hstyle
  styles_size := by
    rw [load, stylesOf, OrderedMap.size, List.length_map, List.length_zipIdx, styles_growth,
      List.length_map]
  variableName v name := by
    rw [Host.ofSnapshot, Answer.value.injEq, Snapshot.variableName?, OrderedMap.find?_eq_some_iff]
    rfl

/-- The walk from the first place meets the nodes of the document in their order. -/
def WalksInOrder (d : Document) : Prop :=
  ∀ limit, d.load.scene.descendants limit 0 = (List.range d.nodes.length).take limit

/-- Loading keeps all of a document, and the walk from the first place meets the nodes in their
order; without a root, where nothing is at that place, it meets the place alone. -/
theorem load_faithful (d : Document) :
    d.HeldBy d.load ∧ ∀ limit, d.load.scene.descendants limit 0 =
      (if d.nodes = [] then [0] else List.range d.nodes.length).take limit := by
  refine ⟨d.heldBy_load, fun limit => Scene.Visits.walk_eq ?_ limit⟩
  split_ifs with h
  · refine Scene.visits_of_size_le ?_
    rw [size_load, h]
    exact Nat.le_refl 0
  · exact visits_load h

/-- A document without a root has no nodes, but the walk meets the place that it starts from. -/
theorem blank_not_walksInOrder : ¬ WalksInOrder ⟨none, ∅⟩ := fun h => absurd (h 1) (by decide)

end Document

end DesignComponents
