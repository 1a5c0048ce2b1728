import DesignComponents.OrderedMap
import Mathlib.Data.List.Nodup
import Mathlib.Tactic.Common

/-! Reading ordered maps, and lists in which each item is kept once. A map made from a list
without repeated keys has exactly the pairs of the list, in that order; of the items of a list
that share a key, the first one can stand for all. -/

namespace DesignComponents

theorem nodup_eraseDups {α : Type} [BEq α] [LawfulBEq α] (l : List α) : l.eraseDups.Nodup := by
  induction hn : l.length using Nat.strongRecOn generalizing l with
  | ind n ih =>
    cases l with
    | nil => exact List.nodup_nil
    | cons a l =>
      rw [List.eraseDups_cons, List.nodup_cons, List.mem_eraseDups]
      have hlt : (l.filter fun b => !b == a).length < n := by
        rw [← hn, List.length_cons]
        exact Nat.lt_succ_of_le (List.length_filter_le _ l)
      exact ⟨by simp, ih _ hlt _ rfl⟩

/-- What tells the items of a list apart may be replaced by anything that it depends on. -/
theorem nodup_map_of_nodup_map {α β γ : Type} {f : α → β} {g : α → γ} {l : List α}
    (h : (l.map f).Nodup) (hfg : ∀ a ∈ l, ∀ b ∈ l, g a = g b → f a = f b) : (l.map g).Nodup :=
  h.of_map.map_on fun a ha b hb he => List.inj_on_of_nodup_map h ha hb (hfg a ha b hb he)

/-- The keys of the pairs with a value are those that have one. -/
theorem map_fst_filterMap {κ α : Type} (f : κ → Option α) (keys : List κ) :
    (keys.filterMap fun k => (f k).map fun a => (k, a)).map Prod.fst =
      keys.filter fun k => (f k).isSome := by
  induction keys with
  | nil => rfl
  | cons k keys ih =>
    cases hf : f k with
    | none => simp [hf, ih]
    | some a => simp [hf, ih]

section firsts

variable {κ α : Type} [DecidableEq κ] {key : α → κ}

/-- The first item of every key, in order. -/
def firsts (key : α → κ) : List α → List α
  | [] => []
  | a :: l => a :: (firsts key l).filter fun b => key b ≠ key a

theorem mem_map_firsts {l : List α} {k : κ} : k ∈ (firsts key l).map key ↔ k ∈ l.map key := by
  induction l with
  | nil => rfl
  | cons a l ih =>
    by_cases hk : k = key a
    · simp [firsts, hk]
    · rw [firsts, List.map_cons, List.mem_cons, List.map_cons, List.mem_cons, ← ih]
      simp only [hk, false_or, List.mem_map, List.mem_filter, decide_eq_true_eq]
      constructor
      · rintro ⟨b, ⟨hb, -⟩, rfl⟩
        exact ⟨b, hb, rfl⟩
      · rintro ⟨b, hb, rfl⟩
        exact ⟨b, ⟨hb, hk⟩, rfl⟩

theorem firsts_sublist (l : List α) : (firsts key l).Sublist l := by
  induction l with
  | nil => exact List.Sublist.slnil
  | cons a l ih => exact (List.filter_sublist.trans ih).cons_cons a

theorem nodup_map_firsts (l : List α) : ((firsts key l).map key).Nodup := by
  induction l with
  | nil => exact List.nodup_nil
  | cons a l ih =>
    rw [firsts, List.map_cons, List.nodup_cons]
    constructor
    · simp
    · exact ih.sublist (List.filter_sublist.map key)

/-- What comes later adds the first items of keys that are new. -/
theorem firsts_append (l l' : List α) :
    firsts key (l ++ l') = firsts key l ++ (firsts key l').filter fun b => key b ∉ l.map key := by
  induction l with
  | nil => simp [firsts]
  | cons a l ih =>
    rw [List.cons_append, firsts, ih, List.filter_append, List.filter_filter, firsts,
      List.cons_append]
    congr 2
    refine List.filter_congr fun b _ => ?_
    simp [not_or]

/-- A last item adds itself if its key is new, and nothing otherwise. -/
theorem firsts_concat (l : List α) (a : α) :
    firsts key (l ++ [a]) = firsts key l ++ if key a ∈ l.map key then [] else [a] := by
  rw [firsts_append, show firsts key [a] = [a] from rfl, List.filter_singleton]
  by_cases h : key a ∈ l.map key
  · rw [if_pos h, decide_eq_false (not_not_intro h), cond_false]
  · rw [if_neg h, decide_eq_true h, cond_true]

/-- Of the items that come in groups, the first one of its key comes in the first group that has
the key. -/
theorem exists_first_of_mem_firsts {β : Type} {f : β → List α} {l : List β} {a : α}
    (h : a ∈ firsts key (l.flatMap f)) :
    ∃ before b after, l = before ++ b :: after ∧ a ∈ f b ∧ ∀ c ∈ before, key a ∉ (f c).map key := by
  induction l with
  | nil => cases h
  | cons b l ih =>
    rw [List.flatMap_cons, firsts_append, List.mem_append, List.mem_filter] at h
    rcases h with h | ⟨h, hnew⟩
    · exact ⟨[], b, l, rfl, (firsts_sublist _).subset h, by simp⟩
    · obtain ⟨before, c, after, rfl, hc, hbefore⟩ := ih h
      refine ⟨b :: before, c, after, rfl, hc, fun c' hc' => ?_⟩
      rcases List.mem_cons.mp hc' with rfl | hc'
      · simpa using hnew
      · exact hbefore c' hc'

/-- Without repeated keys every item is the first one of its key. -/
theorem firsts_eq_self {l : List α} (h : (l.map key).Nodup) : firsts key l = l := by
  induction l with
  | nil => rfl
  | cons a l ih =>
    rw [List.map_cons, List.nodup_cons] at h
    rw [firsts, ih h.2, List.filter_eq_self.mpr]
    intro b hb
    have hne : key b ≠ key a := fun he => h.1 (he ▸ List.mem_map_of_mem hb)
    simpa using hne

end firsts

/-- If every part has a label of its own, a label selects one part. -/
theorem filter_flatMap_of_nodup {α β κ : Type} [DecidableEq κ] {label : α → κ} {key : β → κ}
    {f : α → List β} (hf : ∀ a, ∀ b ∈ f a, key b = label a) {l : List α}
    (h : (l.map label).Nodup) {a : α} (ha : a ∈ l) :
    ((l.flatMap f).filter fun b => key b = label a) = f a := by
  have hself : ((f a).filter fun b => key b = label a) = f a :=
    List.filter_eq_self.mpr fun b hb => decide_eq_true (hf a b hb)
  have hother : ∀ x, label x ≠ label a → ((f x).filter fun b => key b = label a) = [] :=
    fun x hx => List.filter_eq_nil_iff.mpr fun b hb => by simpa [hf x b hb] using hx
  induction l with
  | nil => cases ha
  | cons x l ih =>
    rw [List.map_cons, List.nodup_cons] at h
    rw [List.flatMap_cons, List.filter_append]
    rcases List.mem_cons.mp ha with rfl | ha
    · have hrest : ((l.flatMap f).filter fun b => key b = label a) = [] := by
        rw [List.filter_flatMap, List.flatMap_eq_nil_iff]
        exact fun y hy => hother y fun he => h.1 (he ▸ List.mem_map_of_mem hy)
      rw [hself, hrest, List.append_nil]
    · have hx : label x ≠ label a := fun he => h.1 (he ▸ List.mem_map_of_mem ha)
      rw [hother x hx, ih h.2 ha, List.nil_append]

namespace OrderedMap

variable {κ α : Type} [DecidableEq κ]

theorem insertEntry_of_notMem {key : κ} {es : List (κ × α)} (h : key ∉ es.map Prod.fst)
    (value : α) : insertEntry key value es = es ++ [(key, value)] := by
  induction es with
  | nil => rfl
  | cons e es ih =>
    rw [List.map_cons, List.mem_cons, not_or] at h
    rw [insertEntry, if_neg (Ne.symm h.1), ih h.2, List.cons_append]

theorem entries_ofList {es : List (κ × α)} (h : (es.map Prod.fst).Nodup) :
    (ofList es).entries = es := by
  have hall : ∀ m : OrderedMap κ α, ((m.entries ++ es).map Prod.fst).Nodup →
      (es.foldl (fun m e => m.insert e.1 e.2) m).entries = m.entries ++ es := by
    clear h
    induction es with
    | nil => intro m _; simp
    | cons e es ih =>
      intro m hm
      have hnew : e.1 ∉ m.entries.map Prod.fst := by
        intro he
        rw [List.map_append, List.nodup_append] at hm
        exact hm.2.2 e.1 he e.1 (by simp) rfl
      have hins : (m.insert e.1 e.2).entries = m.entries ++ [e] := insertEntry_of_notMem hnew e.2
      rw [List.foldl_cons, ih _ (by rw [hins]; simpa using hm), hins, List.append_assoc]
      rfl
  exact hall empty h

theorem find?_eq_some_iff (m : OrderedMap κ α) {key : κ} {value : α} :
    m.find? key = some value ↔ (key, value) ∈ m.entries := by
  obtain ⟨es, hn⟩ := m
  rw [find?, Option.map_eq_some_iff]
  constructor
  · rintro ⟨e, he, rfl⟩
    have hk : e.1 = key := by simpa using List.find?_some he
    exact hk ▸ List.mem_of_find?_eq_some he
  · intro hm
    induction es with
    | nil => simp at hm
    | cons e es ih =>
      rw [List.map_cons, List.nodup_cons] at hn
      rcases List.mem_cons.mp hm with rfl | hm
      · exact ⟨(key, value), by simp, rfl⟩
      · have hne : e.1 ≠ key := fun he => hn.1 (he ▸ List.mem_map_of_mem hm)
        obtain ⟨e', he', hv⟩ := ih hn.2 hm
        exact ⟨e', by simpa [hne] using he', hv⟩

theorem find?_ofList_iff {es : List (κ × α)} (h : (es.map Prod.fst).Nodup) {key : κ} {value : α} :
    (ofList es).find? key = some value ↔ (key, value) ∈ es := by
  rw [find?_eq_some_iff, entries_ofList h]

theorem find?_eq_none_of_isEmpty {m : OrderedMap κ α} (h : m.isEmpty = true) (key : κ) :
    m.find? key = none := by
  rw [find?, List.isEmpty_iff.mp h]
  rfl

theorem mem_values_of_find? {m : OrderedMap κ α} {key : κ} {value : α}
    (h : m.find? key = some value) : value ∈ m.values :=
  List.mem_map_of_mem (m.find?_eq_some_iff.mp h)

/-- The pairs whose keys have a property. -/
def restrict (m : OrderedMap κ α) (p : κ → Prop) [DecidablePred p] : OrderedMap κ α where
  entries := m.entries.filter fun e => p e.1
  nodup_keys := m.nodup_keys.sublist (List.filter_sublist.map _)

theorem find?_restrict (m : OrderedMap κ α) (p : κ → Prop) [DecidablePred p] (key : κ) :
    (m.restrict p).find? key = if p key then m.find? key else none := by
  refine Option.ext fun value => ?_
  rw [find?_eq_some_iff, restrict, List.mem_filter, ← find?_eq_some_iff]
  split_ifs with h <;> simp [h]

end OrderedMap

end DesignComponents
