import DesignComponents.Proofs.Scene.Traversal

/-! New nodes below handles of no node. A scene keeps what it has and takes the node in without a
parent, so no walk meets it but its own. The first free handle is another matter: by the time
it is looked up it is the new node's, which is then its own child and is walked without end. -/

namespace DesignComponents.Scene

/-- Scenes that grow by new nodes below any handles. -/
inductive Grown : Scene → Prop
  | empty : Grown empty
  | addRoot {s : Scene} {slot : Slot} (hs : Grown s) (hf : slot.Fresh) : Grown (s.addRoot slot)
  | addChild {s : Scene} {slot : Slot} (hs : Grown s) (hf : slot.Fresh) (parent : Nat) :
      Grown (s.addChild parent slot)

variable {s : Scene} {slot : Slot} {parent : Nat}

/-! ### A node below an unknown handle -/

theorem get?_addChild_of_size_le (hp : s.size ≤ parent) (i : Nat) :
    (s.addChild parent slot).get? i =
      if i = s.size then some (if parent = s.size then slot.addChild s.size else slot)
      else s.get? i := by
  rw [get?_addChild]
  by_cases hi : i = s.size
  · by_cases hs : parent = s.size
    · simp [hi, hs]
    · simp [hi, hs]
  · have hn : parent = i → s.get? i = none := fun he => get?_eq_none (he ▸ hp)
    by_cases he : parent = i
    · simp [hi, he, hn he]
    · simp [hi, he]

/-- The new node is listed by itself or not at all. -/
theorem childrenOf_addChild_of_size_le (hf : slot.Fresh) (hp : s.size ≤ parent) (i : Nat) :
    (s.addChild parent slot).childrenOf i =
      if i = s.size ∧ parent = s.size then [s.size] else s.childrenOf i := by
  have hnone : s.get? s.size = none := get?_eq_none (Nat.le_refl _)
  have hfresh : slot.children.getD [] = [] := hf
  rw [childrenOf, get?_addChild_of_size_le hp]
  by_cases hi : i = s.size
  · subst hi
    by_cases hs : parent = s.size
    · simp [hs, Slot.addChild, hfresh]
    · simp [hs, hfresh, childrenOf, hnone]
  · simp [hi, childrenOf]

/-- Every child of a grown scene is a node of it. -/
theorem Grown.child_lt (h : s.Grown) {p c : Nat} (hc : c ∈ s.childrenOf p) : c < s.size := by
  induction h generalizing p c with
  | empty => simp [show Scene.empty.childrenOf p = [] from childrenOf_eq_nil (Nat.zero_le p)] at hc
  | addRoot _ hf ih =>
    rw [childrenOf_addRoot hf] at hc
    rw [size_addRoot]
    have := ih hc
    omega
  | @addChild s slot _ hf parent ih =>
    rw [size_addChild]
    by_cases hp : parent < s.size
    · rcases (mem_childrenOf_addChild hf hp).mp hc with hc | ⟨-, rfl⟩
      · have := ih hc
        omega
      · omega
    · rw [childrenOf_addChild_of_size_le hf (by omega)] at hc
      split_ifs at hc
      · rw [List.mem_singleton] at hc
        omega
      · have := ih hc
        omega

/-! ### Walks -/

/-- A walk that does not meet a node does not depend on its children. -/
theorem Visits.of_agree {s' : Scene} {k : NodeId}
    (hagree : ∀ i ≠ k, s'.childrenOf i = s.childrenOf i) (hlisted : ∀ i ≠ k, k ∉ s.childrenOf i)
    {stack order : List NodeId} (hk : k ∉ stack) (h : s.Visits stack order) :
    s'.Visits stack order := by
  induction h with
  | nil => exact .nil
  | @next i stack order _ ih =>
    rw [List.mem_cons, not_or] at hk
    have hi : i ≠ k := Ne.symm hk.1
    refine .next ?_
    rw [hagree i hi]
    refine ih fun hm => ?_
    rcases List.mem_append.mp hm with hm | hm
    · exact hlisted i hi hm
    · exact hk.2 hm

theorem Visits.unique {stack order order' : List NodeId} (h : s.Visits stack order)
    (h' : s.Visits stack order') : order = order' := by
  induction h generalizing order' with
  | nil =>
    cases h'
    rfl
  | next _ ih =>
    cases h' with
    | next h' => rw [ih h']

/-- From a node that is its own only child the walk never gets away. -/
theorem descendants_of_childrenOf_self {i : NodeId} (h : s.childrenOf i = [i]) (limit : Nat) :
    s.descendants limit i = List.replicate limit i := by
  rw [descendants]
  induction limit with
  | zero => rfl
  | succ limit ih => rw [walk, h, List.singleton_append, ih, List.replicate_succ]

theorem not_visits_of_childrenOf_self {i : NodeId} (h : s.childrenOf i = [i])
    (order : List NodeId) : ¬ s.Visits [i] order := by
  intro hv
  have hwalk := hv.walk_eq (order.length + 1)
  have hall := descendants_of_childrenOf_self h (order.length + 1)
  rw [descendants, hwalk] at hall
  have hlen := congrArg List.length hall
  simp at hlen

/-! ### The result -/

/-- The new node stands alone in the scene, as it was made, and all else is as it was. -/
structure Orphans (s : Scene) (parent : NodeId) (slot : Slot) : Prop where
  size_eq : (s.addChild parent slot).size = s.size + 1
  root_eq : (s.addChild parent slot).root = s.root
  old : ∀ i < s.size, (s.addChild parent slot).get? i = s.get? i
  new : (s.addChild parent slot).get? s.size = some slot
  unlisted : ∀ i, s.size ∉ (s.addChild parent slot).childrenOf i
  ends : ∀ i order, s.Visits [i] order → (s.addChild parent slot).Visits [i] order
  alone : (s.addChild parent slot).Visits [s.size] [s.size]

/-- Nothing changes at any handle but the new node's, nor in the walks from there. -/
structure SparesOthers (s : Scene) (parent : NodeId) (slot : Slot) : Prop where
  size_eq : (s.addChild parent slot).size = s.size + 1
  root_eq : (s.addChild parent slot).root = s.root
  node : ∀ i ≠ s.size, (s.addChild parent slot).get? i = s.get? i
  unlisted : ∀ i ≠ s.size, s.size ∉ (s.addChild parent slot).childrenOf i
  walk : ∀ i ≠ s.size, ∀ order,
    (s.addChild parent slot).Visits [i] order ↔ s.Visits [i] order

/-- The new node is its own child, once, and the walk from it has no end. -/
structure Loops (s : Scene) (parent : NodeId) (slot : Slot) : Prop where
  node : (s.addChild parent slot).get? s.size = some (slot.addChild s.size)
  listed : (s.addChild parent slot).childrenOf s.size = [s.size]
  walk : ∀ limit,
    (s.addChild parent slot).descendants limit s.size = List.replicate limit s.size

theorem Grown.sparesOthers (hs : s.Grown) (hf : slot.Fresh) (hp : s.size ≤ parent) :
    s.SparesOthers parent slot := by
  have hchildren : ∀ i ≠ s.size, (s.addChild parent slot).childrenOf i = s.childrenOf i := by
    intro i hi
    rw [childrenOf_addChild_of_size_le hf hp, if_neg fun h => hi h.1]
  have hlisted : ∀ i, s.size ∉ s.childrenOf i := fun i hm => Nat.lt_irrefl _ (hs.child_lt hm)
  constructor
  case size_eq => exact size_addChild s parent slot
  case root_eq => rfl
  case node =>
    intro i hi
    rw [get?_addChild_of_size_le hp, if_neg hi]
  case unlisted =>
    intro i hi
    rw [hchildren i hi]
    exact hlisted i
  case walk =>
    intro i hi order
    have hstart : s.size ∉ [i] := by simpa using Ne.symm hi
    constructor
    · intro h
      refine h.of_agree (fun j hj => (hchildren j hj).symm) (fun j hj => ?_) hstart
      rw [hchildren j hj]
      exact hlisted j
    · exact fun h => h.of_agree hchildren (fun j _ => hlisted j) hstart

theorem loops_addChild (hf : slot.Fresh) : s.Loops s.size slot := by
  have hchildren : (s.addChild s.size slot).childrenOf s.size = [s.size] := by
    rw [childrenOf_addChild_of_size_le hf (Nat.le_refl _), if_pos ⟨rfl, rfl⟩]
  refine ⟨?_, hchildren, descendants_of_childrenOf_self hchildren⟩
  rw [get?_addChild_of_size_le (Nat.le_refl _), if_pos rfl, if_pos rfl]

/-- A new node below a handle of no node is an orphan, unless the handle is the first free one and so
its own: then it is its own child. The nodes that were there do not change, whatever the handle. -/
theorem orphans_iff (hs : s.Grown) (hf : slot.Fresh) (hp : s.size ≤ parent) :
    (s.Orphans parent slot ↔ parent ≠ s.size) ∧ s.SparesOthers parent slot ∧
      (parent = s.size → s.Loops parent slot) := by
  have hspares := hs.sparesOthers hf hp
  refine ⟨⟨fun h he => ?_, fun hne => ?_⟩, hspares, fun he => he ▸ loops_addChild hf⟩
  · subst he
    exact not_visits_of_childrenOf_self (loops_addChild hf).listed _ h.alone
  · have hown : (s.addChild parent slot).childrenOf s.size = [] := by
      rw [childrenOf_addChild_of_size_le hf hp, if_neg fun h => hne h.2]
      exact childrenOf_eq_nil (Nat.le_refl _)
    have halone : (s.addChild parent slot).Visits [s.size] [s.size] := by
      refine .next ?_
      rw [hown]
      exact .nil
    constructor
    case size_eq => exact hspares.size_eq
    case root_eq => exact hspares.root_eq
    case old => exact fun i hi => hspares.node i (Nat.ne_of_lt hi)
    case new => rw [get?_addChild_of_size_le hp, if_pos rfl, if_neg hne]
    case unlisted =>
      intro i
      by_cases hi : i = s.size
      · rw [hi, hown]
        exact List.not_mem_nil
      · exact hspares.unlisted i hi
    case ends =>
      intro i order h
      by_cases hi : i = s.size
      · subst hi
        -- the handle of no node was met alone before, and so is the node that has it now
        rw [h.unique (visits_of_size_le (Nat.le_refl s.size))]
        exact halone
      · exact (hspares.walk i hi order).mpr h
    case alone => exact halone

/-- A page and a badge that has no parent. -/
def loosePage : Scene :=
  (empty.addRoot (.ofNode (.plain .frame "Page"))).addChild 7 (.ofNode (.plain .shape "Badge"))

theorem loosePage_grown : loosePage.Grown :=
  (Grown.empty.addRoot (Slot.fresh_ofNode _)).addChild (Slot.fresh_ofNode _) 7

/-- One more frame below a handle that no node gets. -/
theorem loosePage_orphans_iff :
    loosePage.Grown ∧ loosePage.size ≤ 3 ∧
      (loosePage.Orphans 3 (.ofNode (.plain .frame "Card")) ↔ 3 ≠ loosePage.size) ∧
      loosePage.SparesOthers 3 (.ofNode (.plain .frame "Card")) ∧
      (3 = loosePage.size → loosePage.Loops 3 (.ofNode (.plain .frame "Card"))) :=
  ⟨loosePage_grown, by decide, orphans_iff loosePage_grown (Slot.fresh_ofNode _) (by decide)⟩

/-- There is no third node before the call, but there is one by the time its handle is looked up. -/
theorem loosePage_not_orphans :
    loosePage.Grown ∧ loosePage.get? 2 = none ∧
      ¬ loosePage.Orphans 2 (.ofNode (.plain .frame "Card")) :=
  ⟨loosePage_grown, rfl, fun h => h.unlisted 2 (by decide)⟩

end DesignComponents.Scene
