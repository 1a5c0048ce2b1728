import DesignComponents.Proofs.Scene.Forest

/-! What lies below a node of a forest. Two nodes above one node lie on one path, so different
children of a node have nothing below them in common. -/

namespace DesignComponents.Scene

/-- A node and the next one on a path down. -/
def Lists (s : Scene) (p c : NodeId) : Prop := c ∈ s.childrenOf p

/-- A node and the node itself or any node below it. -/
def Reaches (s : Scene) : NodeId → NodeId → Prop := Relation.ReflTransGen s.Lists

variable {s : Scene}

theorem Reaches.refl (i : NodeId) : s.Reaches i i := Relation.ReflTransGen.refl

theorem Reaches.trans {i j k : NodeId} (h₁ : s.Reaches i j) (h₂ : s.Reaches j k) : s.Reaches i k :=
  Relation.ReflTransGen.trans h₁ h₂

/-- A node is reached through one of the children, unless it is the start. -/
theorem reaches_iff {i j : NodeId} :
    s.Reaches i j ↔ j = i ∨ ∃ c ∈ s.childrenOf i, s.Reaches c j := by
  rw [Reaches, Relation.ReflTransGen.cases_head_iff, eq_comm]
  rfl

namespace Forest

theorem le_of_reaches (h : s.Forest) {i j : Nat} (hij : s.Reaches i j) : i ≤ j := by
  induction hij with
  | refl => exact Nat.le_refl i
  | tail _ hc ih => exact Nat.le_trans ih (Nat.le_of_lt (h.parent_lt hc))

theorem reaches_antisymm (h : s.Forest) {i j : Nat} (hij : s.Reaches i j) (hji : s.Reaches j i) :
    i = j :=
  Nat.le_antisymm (h.le_of_reaches hij) (h.le_of_reaches hji)

theorem reaches_lt (h : s.Forest) {i j : Nat} (hi : i < s.size) (hij : s.Reaches i j) :
    j < s.size := by
  rcases Relation.ReflTransGen.cases_tail hij with rfl | ⟨p, -, hc⟩
  · exact hi
  · exact h.child_lt hc

/-- The nodes above a node lie on one path. -/
theorem reaches_or_reaches (h : s.Forest) {i j k : NodeId} (hi : s.Reaches i k)
    (hj : s.Reaches j k) : s.Reaches i j ∨ s.Reaches j i := by
  have hu : Relator.RightUnique (Function.swap s.Lists) := fun _ _ _ hp hq => h.parent_unique hp hq
  have hi' := Relation.reflTransGen_swap.mpr hi
  have hj' := Relation.reflTransGen_swap.mpr hj
  rcases Relation.ReflTransGen.total_of_right_unique hu hi' hj' with hij | hji
  · exact .inr (Relation.reflTransGen_swap.mp hij)
  · exact .inl (Relation.reflTransGen_swap.mp hji)

theorem child_eq_of_reaches (h : s.Forest) {p i j : Nat} (hi : i ∈ s.childrenOf p)
    (hj : j ∈ s.childrenOf p) (hij : s.Reaches i j) : i = j := by
  rcases Relation.ReflTransGen.cases_tail hij with he | ⟨q, hq, hc⟩
  · exact he.symm
  · -- the parent of `j` is `p`, and so `p` would be below its own child
    have hle := h.le_of_reaches (h.parent_unique hj hc ▸ hq)
    have hlt := h.parent_lt hi
    omega

/-- Different children of a node share nothing below them. -/
theorem child_unique (h : s.Forest) {p i j k : NodeId} (hi : i ∈ s.childrenOf p)
    (hj : j ∈ s.childrenOf p) (hik : s.Reaches i k) (hjk : s.Reaches j k) : i = j := by
  rcases h.reaches_or_reaches hik hjk with hij | hji
  · exact h.child_eq_of_reaches hi hj hij
  · exact (h.child_eq_of_reaches hj hi hji).symm

end Forest

end DesignComponents.Scene
