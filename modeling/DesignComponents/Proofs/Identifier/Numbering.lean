import DesignComponents.Proofs.Collections
import DesignComponents.Proofs.Identifier.Consistency
import Mathlib.Data.List.Induction

/-! Numbering without gaps. Of the names that a base makes, always the first ones are taken: as
many as things have come with the base, and one more if the base is reserved. So the number of
a new name is a count of what was there before. -/

namespace DesignComponents.Identifier

instance : DecidablePred Plain := fun name =>
  inferInstanceAs (Decidable (name ≠ [] ∧ '_' ∉ name.tail))

/-- How many names of a base are gone after some requests: one for every different thing that
came with the base, and the base itself if it is reserved. -/
def uses (rs : List Request) (space : Namespace) (base : String) : Nat :=
  ((firsts Request.key rs).countP fun r => r.space = space ∧ r.base = base) +
    if base ∈ Table.reserved space then 1 else 0

namespace Table

theorem plain_of_mem_reserved {space : Namespace} {name : String} (h : name ∈ reserved space) :
    Plain name.toList := by
  have hall : ∀ name ∈ reservedMembers, Plain name.toList := by decide
  cases space with
  | tag => cases h
  | className => cases h
  | member => exact hall name h

theorem numbered_mem_reserved_iff {space : Namespace} {base : String} (hb : Plain base.toList)
    (k : Nat) : numbered base k ∈ reserved space ↔ k = 0 ∧ base ∈ reserved space := by
  constructor
  · intro hm
    -- a reserved name is a base as well, the first name of itself
    have h0 : numbered base k = numbered (numbered base k) 0 := rfl
    obtain ⟨-, rfl⟩ := (numbered_inj hb (plain_of_mem_reserved hm)).mp h0
    exact ⟨rfl, hm⟩
  · rintro ⟨rfl, hm⟩
    exact hm

/-- If exactly the first names of a base are taken, the next one is fresh. -/
theorem fresh_eq_numbered {t : Table} {space : Namespace} {base : String} {c : Nat}
    (h : ∀ k, numbered base k ∈ t.taken space ↔ k < c) : t.fresh space base = numbered base c := by
  obtain ⟨k, he, hk, hall⟩ := t.exists_fresh_eq space base
  have hck : ¬ k < c := fun hlt => hk ((h k).mpr hlt)
  have hkc : ¬ c < k := fun hlt => Nat.lt_irrefl c ((h c).mp (hall c hlt))
  rw [he, show k = c by omega]

theorem uses_concat_of_mem {rs : List Request} {r : Request} (h : r.key ∈ rs.map Request.key)
    (space : Namespace) (base : String) : uses (rs ++ [r]) space base = uses rs space base := by
  rw [uses, firsts_concat, if_pos h, List.append_nil, uses]

theorem uses_concat_of_notMem {rs : List Request} {r : Request} (h : r.key ∉ rs.map Request.key)
    (space : Namespace) (base : String) :
    uses (rs ++ [r]) space base =
      uses rs space base + if r.space = space ∧ r.base = base then 1 else 0 := by
  rw [uses, firsts_concat, if_neg h, List.countP_append, List.countP_singleton, uses]
  simp only [decide_eq_true_eq]
  omega

/-- Exactly the first names of a base are taken. -/
theorem numbered_mem_taken_iff (rs : List Request) {space : Namespace} {base : String}
    (hb : Plain base.toList) (k : Nat) :
    numbered base k ∈ (empty.assignAll rs).taken space ↔ k < uses rs space base := by
  induction rs using List.reverseRecOn generalizing space base k with
  | nil =>
    have htaken : (empty.assignAll []).taken space = reserved space := List.append_nil _
    rw [htaken, numbered_mem_reserved_iff hb]
    simp only [uses, firsts, List.countP_nil, Nat.zero_add]
    split_ifs with hr <;> simp [hr]
  | append_singleton rs r ih =>
    rw [assignAll_append]
    show numbered base k ∈ ((empty.assignAll rs).assign r).taken space ↔ _
    by_cases hr : r.key ∈ rs.map Request.key
    · rw [uses_concat_of_mem hr, assign_of_mem (mem_keys_assignAll_empty.mpr hr), ih hb]
    · have hnew := mt mem_keys_assignAll_empty.mp hr
      have hplain : Plain r.base.toList := r.space.plain_normalize r.raw
      -- the invariant for the base of the request says which name the request gets
      have hfresh : (empty.assignAll rs).fresh r.space r.base =
          numbered r.base (uses rs r.space r.base) := fresh_eq_numbered (ih hplain)
      rw [uses_concat_of_notMem hr, (taken_assign_perm hnew space).mem_iff, List.mem_append, ih hb,
        hfresh]
      by_cases hs : r.space = space
      · subst hs
        rw [if_pos rfl, List.mem_singleton, numbered_inj hb hplain]
        by_cases hbase : base = r.base
        · subst hbase
          simp only [true_and, and_self, if_true]
          omega
        · simp [hbase, Ne.symm hbase]
      · simp [hs]

/-- A thing that comes for the first time gets the number of names that are gone. -/
theorem lookup_assign_of_notMem {rs : List Request} {r : Request} (h : r.key ∉ rs.map Request.key) :
    ((empty.assignAll rs).assign r).lookup r.space r.entity =
      some (numbered r.base (uses rs r.space r.base)) := by
  have hnone := lookup_eq_none_iff.mpr (mt mem_keys_assignAll_empty.mp h)
  rw [lookup_assign, if_pos ⟨rfl, rfl⟩, hnone, Option.getD_none]
  exact congrArg some (fresh_eq_numbered (numbered_mem_taken_iff rs (r.space.plain_normalize r.raw)))

/-- A numbered name is never a base. -/
theorem numbered_succ_ne_normalize (space space' : Namespace) (raw raw' : String) (k : Nat) :
    numbered (space.normalize raw) (k + 1) ≠ space'.normalize raw' := by
  intro he
  have h0 : numbered (space.normalize raw) (k + 1) = numbered (space'.normalize raw') 0 := he
  have := (numbered_inj (space.plain_normalize raw) (space'.plain_normalize raw')).mp h0
  omega

end Table

end DesignComponents.Identifier
