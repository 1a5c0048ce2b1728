import DesignComponents.Proofs.Identifier.Assignment

/-! Separate namespaces. What a table has in one namespace depends on the requests of that
namespace alone, so that only their order matters, and not how the requests of different
namespaces are mixed. -/

namespace DesignComponents.Identifier

/-- Of requests in one namespace a namespace has all or none. -/
theorem Request.filter_space {rs : List Request} {space : Namespace} (h : ∀ r ∈ rs, r.space = space)
    (space' : Namespace) :
    (rs.filter fun r => r.space = space') = if space = space' then rs else [] := by
  split_ifs with hs
  · exact List.filter_eq_self.mpr fun r hr => decide_eq_true ((h r hr).trans hs)
  · exact List.filter_eq_nil_iff.mpr fun r hr => by simpa [h r hr] using hs

namespace Table

/-- The entries of one namespace. -/
def restrict (t : Table) (space : Namespace) : Table :=
  ⟨t.entries.filter fun e => e.space = space⟩

variable {space : Namespace}

theorem lookup_restrict (t : Table) (entity : Entity) :
    (t.restrict space).lookup space entity = t.lookup space entity := by
  rw [lookup, lookup, restrict, List.find?_filter]
  congr 2
  funext e
  by_cases h : e.space = space <;> simp [h]

theorem fresh_restrict (t : Table) (base : String) :
    (t.restrict space).fresh space base = t.fresh space base := by
  have htaken : (t.restrict space).taken space = t.taken space := by
    rw [taken, taken, restrict, List.filter_filter]
    simp
  rw [fresh, fresh, htaken]

theorem restrict_assign_self (t : Table) (r : Request) :
    (t.assign r).restrict r.space = (t.restrict r.space).assign r := by
  rw [assign, assign, lookup_restrict, fresh_restrict]
  cases t.lookup r.space r.entity with
  | some name => rfl
  | none => simp [restrict]

theorem restrict_assign_of_ne (t : Table) {r : Request} (h : r.space ≠ space) :
    (t.assign r).restrict space = t.restrict space := by
  rw [assign]
  cases t.lookup r.space r.entity with
  | some name => rfl
  | none => simp [restrict, h]

theorem restrict_assignAll (t : Table) (rs : List Request) :
    (t.assignAll rs).restrict space =
      (t.restrict space).assignAll (rs.filter fun r => r.space = space) := by
  induction rs generalizing t with
  | nil => rfl
  | cons r rs ih =>
    rw [assignAll_cons, ih]
    by_cases h : r.space = space
    · subst h
      rw [List.filter_cons_of_pos (by simp), assignAll_cons, restrict_assign_self]
    · rw [List.filter_cons_of_neg (by simpa using h), restrict_assign_of_ne t h]

/-- Requests that agree in each namespace give the same names. -/
theorem lookup_assignAll_congr (t : Table) {rs qs : List Request}
    (h : (rs.filter fun r => r.space = space) = qs.filter fun r => r.space = space)
    (entity : Entity) :
    (t.assignAll rs).lookup space entity = (t.assignAll qs).lookup space entity := by
  rw [← lookup_restrict, restrict_assignAll, h, ← restrict_assignAll, lookup_restrict]

end Table

end DesignComponents.Identifier
