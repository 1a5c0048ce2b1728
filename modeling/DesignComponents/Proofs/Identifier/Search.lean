import DesignComponents.Proofs.Identifier.Assignment
import Mathlib.Data.List.Nodup
import Mathlib.Data.List.Perm.Subperm

/-! The search for a free name. A base makes a different name with every number, so that among
one more candidates than there are taken names one is free. The search ends at the first free
candidate, and a table that grows by such names stays consistent. -/

namespace DesignComponents.Identifier

namespace Table

theorem toList_numbered_succ (base : String) (k : Nat) :
    (numbered base (k + 1)).toList = base.toList ++ '_' :: Nat.toDigits 10 (k + 1) := by
  simp [numbered]

theorem mem_toList_numbered {base : String} {c : Char} (h : c ∈ base.toList) (k : Nat) :
    c ∈ (numbered base k).toList := by
  cases k with
  | zero => exact h
  | succ k => exact toList_numbered_succ base k ▸ List.mem_append_left _ h

theorem numbered_succ_ne_zero (base : String) (k : Nat) :
    numbered base (k + 1) ≠ numbered base 0 := by
  intro h
  have hl := congrArg String.toList h
  rw [toList_numbered_succ, numbered] at hl
  exact List.cons_ne_nil _ _ (List.append_right_eq_self.mp hl)

theorem numbered_injective (base : String) : Function.Injective (numbered base) := by
  intro j k h
  cases j with
  | zero =>
    cases k with
    | zero => rfl
    | succ k => exact absurd h.symm (numbered_succ_ne_zero base k)
  | succ j =>
    cases k with
    | zero => exact absurd h (numbered_succ_ne_zero base j)
    | succ k =>
      have hl := congrArg String.toList h
      rw [toList_numbered_succ, toList_numbered_succ, List.append_cancel_left_eq,
        List.cons_inj_right] at hl
      have hdigits := congrArg (Nat.ofDigitChars 10 · 0) hl
      simpa only [Nat.ofDigitChars_ten_toDigits] using hdigits

/-- The search passes over taken candidates only, and gives up only after all of its steps. -/
theorem exists_firstFree_eq (taken : List String) (base : String) (fuel k : Nat) :
    ∃ j, k ≤ j ∧ firstFree taken base fuel k = numbered base j ∧
      (∀ i, k ≤ i → i < j → numbered base i ∈ taken) ∧ (numbered base j ∉ taken ∨ j = k + fuel) := by
  induction fuel generalizing k with
  | zero => exact ⟨k, Nat.le_refl k, rfl, fun i hk hj => by omega, .inr rfl⟩
  | succ fuel ih =>
    rw [firstFree]
    split_ifs with hk
    · obtain ⟨j, hkj, he, hall, hj⟩ := ih (k + 1)
      refine ⟨j, by omega, he, fun i hi hij => ?_, hj.imp id fun h => by omega⟩
      by_cases hik : i = k
      · exact hik ▸ hk
      · exact hall i (by omega) hij
    · exact ⟨k, Nat.le_refl k, rfl, fun i hi hj => by omega, .inl hk⟩

/-- The search ends at the first candidate that is free. -/
theorem exists_fresh_eq (t : Table) (space : Namespace) (base : String) :
    ∃ k, t.fresh space base = numbered base k ∧ numbered base k ∉ t.taken space ∧
      ∀ j < k, numbered base j ∈ t.taken space := by
  obtain ⟨k, -, he, hall, hk⟩ :=
    exists_firstFree_eq (t.taken space) base (t.taken space).length 0
  have hall' : ∀ j < k, numbered base j ∈ t.taken space := fun j hj => hall j (Nat.zero_le j) hj
  refine ⟨k, he, ?_, hall'⟩
  rcases hk with hk | hk
  · exact hk
  · -- the candidates before the last one use up all taken names
    intro hmem
    have hsub : (List.range (k + 1)).map (numbered base) ⊆ t.taken space := by
      intro name hn
      obtain ⟨j, hj, rfl⟩ := List.mem_map.mp hn
      rcases Nat.lt_succ_iff_lt_or_eq.mp (List.mem_range.mp hj) with hj | rfl
      · exact hall' j hj
      · exact hmem
    have hnodup := List.nodup_range (n := k + 1) |>.map (numbered_injective base)
    have hle := (hnodup.subperm hsub).length_le
    rw [List.length_map, List.length_range] at hle
    omega

theorem fresh_notMem_taken (t : Table) (space : Namespace) (base : String) :
    t.fresh space base ∉ t.taken space := by
  obtain ⟨k, he, hk, -⟩ := t.exists_fresh_eq space base
  exact he ▸ hk

end Table

end DesignComponents.Identifier
