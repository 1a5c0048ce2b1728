import DesignComponents.Proofs.Scene.Outline

/-! The walk through a scene. It keeps a stack of places, takes the first one and puts its children
in its place. In a scene that callers can build the stack runs empty, no place is met twice, and
the places come in the recursive order: a node, and then the orders of its children. -/

namespace DesignComponents.Scene

/-- The walk from a stack meets some places, one after the other, and then the stack is empty. -/
inductive Visits (s : Scene) : List NodeId → List NodeId → Prop
  | nil : Visits s [] []
  | next {i : NodeId} {stack order : List NodeId} (h : Visits s (s.childrenOf i ++ stack) order) :
      Visits s (i :: stack) (i :: order)

variable {s : Scene}

/-- A walk that comes to an end can be cut off anywhere. -/
theorem Visits.walk_eq {stack order : List NodeId} (h : s.Visits stack order) (limit : Nat) :
    s.walk limit stack = order.take limit := by
  induction h generalizing limit with
  | nil => rw [walk_nil, List.take_nil]
  | @next i stack order h ih =>
    cases limit with
    | zero => rfl
    | succ limit => rw [walk, ih, List.take_succ_cons]

/-- A tree on top of the stack is met as a whole before anything below it. -/
theorem Shows.visits {t : Tree} (h : s.Shows t) {stack order : List NodeId}
    (hrest : s.Visits stack order) : s.Visits (t.id :: stack) (t.ids ++ order) := by
  induction t generalizing stack order with
  | leaf id node =>
    refine .next ?_
    rw [Tree.id, h.childrenOf_leaf]
    exact hrest
  | branch id node children ih =>
    rw [Tree.ids_branch, List.cons_append]
    refine .next ?_
    rw [Tree.id, h.childrenOf_branch]
    -- the children stand on the stack in their order, so the last one is put there first
    have hall : ∀ ts : List Tree, ts ⊆ children →
        s.Visits (ts.map Tree.id ++ stack) (ts.flatMap Tree.ids ++ order) := by
      intro ts hts
      induction ts with
      | nil => exact hrest
      | cons c ts iht =>
        rw [List.cons_subset] at hts
        rw [List.flatMap_cons, List.append_assoc]
        exact ih c hts.1 (h.of_mem hts.1) (iht hts.2)
    exact hall children (List.Subset.refl _)

/-- A place without a node is met, and nothing else. -/
theorem visits_of_size_le {i : Nat} (hi : s.size ≤ i) : s.Visits [i] [i] := by
  refine .next ?_
  rw [childrenOf_eq_nil hi]
  exact .nil

/-! ### The order of the walk -/

/-- All places that the walk from a place meets; there is one step for every node, and one if the
place has no node. -/
def order (s : Scene) (i : NodeId) : List NodeId := s.descendants (s.size + 1) i

theorem order_of_size_le {i : Nat} (hi : s.size ≤ i) : s.order i = [i] := by
  rw [order, descendants, (visits_of_size_le hi).walk_eq, List.take_succ_cons, List.take_nil]

theorem Shows.order_eq {t : Tree} (h : s.Shows t) (hf : s.Forest) : s.order t.id = t.ids :=
  h.descendants_eq hf (Nat.le_succ _)

namespace Forest

/-- A place is that of a tree in the scene, or it has no node. -/
theorem shows_or_size_le (hf : s.Forest) (i : Nat) : (∃ t, s.Shows t ∧ t.id = i) ∨ s.size ≤ i := by
  by_cases hi : i < s.size
  · obtain ⟨t, -, ht, hid⟩ := hf.tree?_shows hi
    exact .inl ⟨t, ht, hid⟩
  · exact .inr (Nat.not_lt.mp hi)

theorem nodup_order (hf : s.Forest) (i : Nat) : (s.order i).Nodup := by
  obtain ⟨t, ht, rfl⟩ | hi := hf.shows_or_size_le i
  · rw [ht.order_eq hf]
    exact ht.nodup_ids hf
  · rw [order_of_size_le hi]
    exact List.nodup_singleton i

theorem visits_order (hf : s.Forest) (i : Nat) : s.Visits [i] (s.order i) := by
  obtain ⟨t, ht, rfl⟩ | hi := hf.shows_or_size_le i
  · have hv := ht.visits .nil
    rwa [List.append_nil, ← ht.order_eq hf] at hv
  · rw [order_of_size_le hi]
    exact visits_of_size_le hi

/-- A node comes first and then its children, each with all that is below it. -/
theorem order_eq_cons (hf : s.Forest) (i : Nat) :
    s.order i = i :: (s.childrenOf i).flatMap s.order := by
  obtain ⟨t, ht, rfl⟩ | hi := hf.shows_or_size_le i
  · rw [ht.order_eq hf]
    cases t with
    | leaf id node => rw [Tree.id, ht.childrenOf_leaf, Tree.ids_leaf, List.flatMap_nil]
    | branch id node children =>
      rw [Tree.id, ht.childrenOf_branch, Tree.ids_branch, List.flatMap_map]
      congr 1
      exact List.flatMap_congr fun c hc => ((ht.of_mem hc).order_eq hf).symm
  · rw [order_of_size_le hi, childrenOf_eq_nil hi, List.flatMap_nil]

end Forest

/-- In a scene that callers can build, children are newer than their parents and in increasing
order, no node is a child twice and the root is not one. So the walk from any place ends, meets no
place twice and goes through the recursive order. -/
theorem walk_in_preorder {s : Scene} (hs : s.Built) :
    s.Forest ∧ ∃ order : NodeId → List NodeId,
      (∀ i, order i = i :: (s.childrenOf i).flatMap order) ∧
        ∀ i, (order i).Nodup ∧ s.Visits [i] (order i) ∧
          ∀ limit, s.descendants limit i = (order i).take limit := by
  have hf := hs.forest
  refine ⟨hf, s.order, hf.order_eq_cons, fun i => ⟨hf.nodup_order i, hf.visits_order i, ?_⟩⟩
  exact (hf.visits_order i).walk_eq

/-- A page that is no longer the root, and gets a card below its first child after that. -/
def coverPage : Scene :=
  let page := empty.addRoot (.ofNode (.plain .frame "Page"))
  let footer := (page.addChild 0 (.ofNode (.plain .frame "Card"))).addChild 0
    (.ofNode (.plain .text "Footer"))
  let cover := footer.addRoot (.ofNode (.plain .frame "Cover"))
  cover.addChild 1 (.ofNode (.plain .shape "Badge"))

theorem coverPage_built : coverPage.Built :=
  have page := Built.empty.addRoot (Slot.fresh_ofNode _)
  have card := page.addChild (Slot.fresh_ofNode _) (by decide)
  have footer := card.addChild (Slot.fresh_ofNode _) (by decide)
  have cover := footer.addRoot (Slot.fresh_ofNode _)
  cover.addChild (Slot.fresh_ofNode _) (by decide)

/-- The badge is the newest node, but comes before the footer. -/
theorem coverPage_walk_in_preorder :
    coverPage.Built ∧ coverPage.root = some 3 ∧ coverPage.descendants 9 0 = [0, 1, 4, 2] ∧
      coverPage.Forest ∧ ∃ order : NodeId → List NodeId,
        (∀ i, order i = i :: (coverPage.childrenOf i).flatMap order) ∧
          ∀ i, (order i).Nodup ∧ coverPage.Visits [i] (order i) ∧
            ∀ limit, coverPage.descendants limit i = (order i).take limit :=
  ⟨coverPage_built, rfl, by decide, walk_in_preorder coverPage_built⟩

end DesignComponents.Scene
