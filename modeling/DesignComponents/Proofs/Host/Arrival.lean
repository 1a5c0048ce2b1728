import DesignComponents.Host.Schedule
import Mathlib.Data.List.Basic
import Mathlib.Tactic.Common

/-! Joining tasks, whatever the order in which they complete. Every task arrives once, every order
of arrival belongs to some schedule, and a join gives the results in the order of the tasks. -/

namespace DesignComponents

section
variable {α : Type} (time : α → Nat)

theorem insertByTime_perm (a : α) (l : List α) : (insertByTime time a l).Perm (a :: l) := by
  induction l with
  | nil => exact .refl _
  | cons b l ih =>
    rw [insertByTime]
    split_ifs
    · exact .refl _
    · exact (ih.cons b).trans (.swap a b l)

theorem arrivals_perm (l : List α) : (arrivals time l).Perm l := by
  induction l with
  | nil => exact .refl _
  | cons a l ih => exact (insertByTime_perm time a _).trans (ih.cons a)

theorem insertByTime_sorted (a : α) {l : List α} (h : l.Pairwise (time · ≤ time ·)) :
    (insertByTime time a l).Pairwise (time · ≤ time ·) := by
  induction l with
  | nil => exact List.pairwise_singleton _ _
  | cons b l ih =>
    obtain ⟨hb, hl⟩ := List.pairwise_cons.mp h
    rw [insertByTime]
    split_ifs with hab
    · refine List.pairwise_cons.mpr ⟨fun c hc => ?_, h⟩
      rcases List.mem_cons.mp hc with rfl | hc
      · exact hab
      · exact Nat.le_trans hab (hb c hc)
    · refine List.pairwise_cons.mpr ⟨fun c hc => ?_, ih hl⟩
      rcases List.mem_cons.mp ((insertByTime_perm time a l).subset hc) with rfl | hc
      · exact Nat.le_of_not_le hab
      · exact hb c hc

theorem arrivals_sorted (l : List α) : (arrivals time l).Pairwise (time · ≤ time ·) := by
  induction l with
  | nil => exact .nil
  | cons a l ih => exact insertByTime_sorted time a ih

end

/-- Tasks timed by their positions in an order arrive in that order. -/
theorem arrivals_idxOf {order tasks : List Nat} (hn : tasks.Nodup) (hp : order.Perm tasks) :
    arrivals (order.idxOf ·) tasks = order := by
  have hperm := (arrivals_perm (order.idxOf ·) tasks).trans hp.symm
  refine List.Perm.eq_of_pairwise ?_ (arrivals_sorted _ tasks) ?_ hperm
  · intro i j hi _ hij hji
    exact (List.idxOf_inj (hperm.subset hi)).mp (Nat.le_antisymm hij hji)
  · rw [List.pairwise_iff_getElem]
    intro i j hi hj hij
    have hno := hp.nodup_iff.mpr hn
    simp only [hno.idxOf_getElem]
    exact Nat.le_of_lt hij

/-- Any orders of completion, one for the children of each node and one for the variables, are
those of a schedule. -/
theorem Schedule.exists_of_orders {count : Nat → Nat} {order : Nat → List Nat}
    (hc : ∀ i, (order i).Perm (List.range (count i))) {names : List Nat} {n : Nat}
    (hn : names.Perm (List.range n)) :
    ∃ schedule : Schedule,
      (∀ i, arrivals (schedule.child i) (List.range (count i)) = order i) ∧
        arrivals schedule.name (List.range n) = names :=
  ⟨⟨fun i k => (order i).idxOf k, fun k => names.idxOf k⟩,
    fun i => arrivals_idxOf List.nodup_range (hc i), arrivals_idxOf List.nodup_range hn⟩

/-! ### The join -/

section
variable {ε α : Type}

/-- The slots when some of the tasks have arrived. -/
def slotsAfter (values : List α) (arrived : List Nat) : List (Option α) :=
  (List.range values.length).map fun i => if i ∈ arrived then values[i]? else none

theorem slotsAfter_nil (values : List α) :
    slotsAfter values [] = List.replicate values.length none := by
  simp [slotsAfter, List.map_const']

/-- One more arrival fills its own slot and no other. -/
theorem set_slotsAfter (values : List α) (arrived : List Nat) {i : Nat} (hi : i < values.length) :
    (slotsAfter values arrived).set i (some values[i]) = slotsAfter values (i :: arrived) := by
  refine List.ext_getElem (by simp [slotsAfter]) fun j hj _ => ?_
  simp only [slotsAfter, List.length_set, List.length_map, List.length_range] at hj
  rw [List.getElem_set]
  by_cases h : i = j
  · subst h
    simp [slotsAfter, hi]
  · rw [if_neg h]
    simp [slotsAfter, Ne.symm h]

/-- Taking in results that all went through fills the slots of those that arrive. -/
theorem takeIn_ok (values : List α) (order arrived : List Nat) (h : ∀ i ∈ order, i < values.length) :
    takeIn (values.map .ok : List (Except ε α)) order (slotsAfter values arrived) =
      .ok (slotsAfter values (order.reverse ++ arrived)) := by
  induction order generalizing arrived with
  | nil => rfl
  | cons i order ih =>
    have hi : i < values.length := h i List.mem_cons_self
    have hr : (values.map .ok : List (Except ε α))[i]? = some (.ok values[i]) := by simp [hi]
    rw [takeIn, hr]
    simp only
    rw [set_slotsAfter values arrived hi, ih _ fun j hj => h j (List.mem_cons_of_mem i hj),
      List.reverse_cons, List.append_assoc, List.singleton_append]

theorem slotsAfter_all {values : List α} {order : List Nat}
    (h : ∀ i < values.length, i ∈ order) : (slotsAfter values order).filterMap id = values := by
  have hall : slotsAfter values order = values.map some := by
    refine List.ext_getElem (by simp [slotsAfter]) fun i hi _ => ?_
    simp only [slotsAfter, List.length_map, List.length_range] at hi
    simp [slotsAfter, h i hi, hi]
  rw [hall, List.filterMap_map]
  exact List.filterMap_some

/-- A join of tasks that all went through has their values in the order of the tasks. -/
theorem join_ok (values : List α) {order : List Nat} (h : order.Perm (List.range values.length)) :
    join order (values.map .ok : List (Except ε α)) = .ok values := by
  have hmem : ∀ i, i ∈ order ↔ i < values.length := fun i => h.mem_iff.trans List.mem_range
  rw [join, List.length_map, ← slotsAfter_nil, takeIn_ok values order [] fun i hi => (hmem i).mp hi,
    Except.map, slotsAfter_all]
  intro i hi
  simpa using (hmem i).mpr hi

example : join [2, 0, 1] ([.ok 'a', .ok 'b', .ok 'c'] : List (Except Unit Char)) =
    .ok ['a', 'b', 'c'] := rfl

theorem join_arrivals_ok {results : List (Except ε α)} {values : List α}
    (h : results = values.map .ok) (time : Nat → Nat) :
    join (arrivals time (List.range results.length)) results = .ok values := by
  rw [h, List.length_map]
  exact join_ok values (arrivals_perm time _)

/-- Taking in results ends with the failure of a task, unless no task that arrives has failed. -/
theorem takeIn_cases (results : List (Except ε α)) (order : List Nat) (slots : List (Option α)) :
    (∃ e, takeIn results order slots = .error e ∧ .error e ∈ results) ∨
      ∀ i ∈ order, ∀ e, results[i]? ≠ some (.error e) := by
  induction order generalizing slots with
  | nil => exact .inr (by simp)
  | cons i order ih =>
    rw [takeIn]
    cases hr : results[i]? with
    | none =>
      refine (ih slots).imp_right fun h => ?_
      simpa [hr] using h
    | some r =>
      cases r with
      | error e => exact .inl ⟨e, rfl, List.mem_of_getElem? hr⟩
      | ok a =>
        refine (ih _).imp_right fun h => ?_
        simpa [hr] using h

theorem exists_eq_map_ok {results : List (Except ε α)} (h : ∀ e, .error e ∉ results) :
    ∃ values : List α, results = values.map .ok := by
  induction results with
  | nil => exact ⟨[], rfl⟩
  | cons r results ih =>
    obtain ⟨values, rfl⟩ := ih fun e he => h e (List.mem_cons_of_mem _ he)
    cases r with
    | error e => exact absurd List.mem_cons_self (h e)
    | ok a => exact ⟨a :: values, rfl⟩

/-- In whatever order tasks arrive, their join fails exactly if one of them does, and then with
the failure of one of them. -/
theorem join_arrivals_cases (results : List (Except ε α)) (time : Nat → Nat) :
    (∃ values, join (arrivals time (List.range results.length)) results = .ok values ∧
        ∀ e, .error e ∉ results) ∨
      ∃ e, join (arrivals time (List.range results.length)) results = .error e ∧
        .error e ∈ results := by
  rcases takeIn_cases results (arrivals time (List.range results.length))
    (List.replicate results.length none) with ⟨e, htake, he⟩ | hall
  · exact .inr ⟨e, by rw [join, htake]; rfl, he⟩
  · have hnone : ∀ e, .error e ∉ results := by
      intro e he
      obtain ⟨i, hi, hr⟩ := List.mem_iff_getElem.mp he
      have harrives : i ∈ arrivals time (List.range results.length) :=
        (arrivals_perm time _).mem_iff.mpr (List.mem_range.mpr hi)
      exact hall i harrives e (by rw [List.getElem?_eq_getElem hi, hr])
    obtain ⟨values, hv⟩ := exists_eq_map_ok hnone
    exact .inl ⟨values, join_arrivals_ok hv time, hnone⟩

end

end DesignComponents
