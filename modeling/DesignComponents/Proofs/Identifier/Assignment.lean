import DesignComponents.Identifier.Table
import Mathlib.Tactic.Common

/-! Assignments of names. A request gives its entity a name and touches no other name; a name
once given stays, whatever is requested later. -/

namespace DesignComponents.Identifier.Table

/-- The table after one request, name by name. -/
theorem lookup_assign (t : Table) (r : Request) (space : Namespace) (entity : Entity) :
    (t.assign r).lookup space entity =
      if r.space = space ∧ r.entity = entity then
        some ((t.lookup space entity).getD (t.fresh r.space (r.space.normalize r.raw)))
      else t.lookup space entity := by
  simp only [assign]
  cases h : t.lookup r.space r.entity with
  | some name =>
    split_ifs with he
    · obtain ⟨rfl, rfl⟩ := he
      rw [h, Option.getD_some]
    · rfl
  | none =>
    split_ifs with he
    · obtain ⟨rfl, rfl⟩ := he
      rw [h, Option.getD_none]
      simp [lookup]
    · have hb : (decide (r.space = space) && decide (r.entity = entity)) = false := by
        simpa using he
      simp [lookup, hb]

theorem lookup_assign_of_some {t : Table} {space : Namespace} {entity : Entity} {name : String}
    (h : t.lookup space entity = some name) (r : Request) :
    (t.assign r).lookup space entity = some name := by
  rw [lookup_assign, h]
  split_ifs <;> rfl

theorem exists_lookup_assign (t : Table) (r : Request) :
    ∃ name, (t.assign r).lookup r.space r.entity = some name := by
  rw [lookup_assign, if_pos ⟨rfl, rfl⟩]
  exact ⟨_, rfl⟩

@[simp] theorem assignAll_nil (t : Table) : t.assignAll [] = t := rfl

@[simp] theorem assignAll_cons (t : Table) (r : Request) (rs : List Request) :
    t.assignAll (r :: rs) = (t.assign r).assignAll rs := rfl

theorem assignAll_append (t : Table) (rs qs : List Request) :
    t.assignAll (rs ++ qs) = (t.assignAll rs).assignAll qs := List.foldl_append

/-- A name stays through all later requests. -/
theorem lookup_assignAll_of_some {t : Table} {space : Namespace} {entity : Entity} {name : String}
    (h : t.lookup space entity = some name) (rs : List Request) :
    (t.assignAll rs).lookup space entity = some name := by
  induction rs generalizing t with
  | nil => exact h
  | cons r rs ih => exact ih (lookup_assign_of_some h r)

/-- Everything that was requested has a name. -/
theorem exists_lookup_assignAll (t : Table) {r : Request} {rs : List Request} (h : r ∈ rs) :
    ∃ name, (t.assignAll rs).lookup r.space r.entity = some name := by
  obtain ⟨before, after, rfl⟩ := List.append_of_mem h
  rw [assignAll_append, assignAll_cons]
  obtain ⟨name, hn⟩ := exists_lookup_assign (t.assignAll before) r
  exact ⟨name, lookup_assignAll_of_some hn after⟩

/-- Requests in other namespaces do not touch a name. -/
theorem lookup_assignAll_of_ne {space : Namespace} (t : Table) {rs : List Request}
    (h : ∀ r ∈ rs, r.space ≠ space) (entity : Entity) :
    (t.assignAll rs).lookup space entity = t.lookup space entity := by
  induction rs generalizing t with
  | nil => rfl
  | cons r rs ih =>
    rw [assignAll_cons, ih _ fun q hq => h q (List.mem_cons_of_mem _ hq), lookup_assign,
      if_neg fun he => h r List.mem_cons_self he.1]

theorem nameOf_eq {t : Table} {space : Namespace} {entity : Entity} {name : String}
    (h : t.lookup space entity = some name) : t.nameOf space entity = name := by
  rw [nameOf, h, Option.getD_some]

end DesignComponents.Identifier.Table
