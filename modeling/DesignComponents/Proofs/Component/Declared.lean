import DesignComponents.Component.Properties
import DesignComponents.Proofs.Scene.Outline

/-! The properties that a component declares. Nested components are collected on their own and
added as a whole, yet the properties are those of a flat list: the drafts of all nodes below,
each under its name, the first one of every name. -/

namespace DesignComponents

namespace TokenSet

theorem insertAll_append (s : TokenSet) (ts us : List Token) :
    s.insertAll (ts ++ us) = (s.insertAll ts).insertAll us := List.foldl_append

/-- The names in a set. -/
def names (s : TokenSet) : List String := s.tokens.map Token.name

theorem contains_iff {s : TokenSet} {name : String} : s.contains name = true ↔ name ∈ s.names := by
  simp [contains, names]

theorem mem_names_insert {s : TokenSet} {t : Token} {name : String} :
    name ∈ (s.insert t).names ↔ name ∈ s.names ∨ name = t.name := by
  rw [insert]
  split_ifs with h
  · have hm := contains_iff.mp h
    exact ⟨.inl, fun hn => hn.elim id fun he => he ▸ hm⟩
  · simp [names]

theorem mem_names_insertAll {s : TokenSet} {ts : List Token} {name : String} :
    name ∈ (s.insertAll ts).names ↔ name ∈ s.names ∨ name ∈ ts.map Token.name := by
  induction ts generalizing s with
  | nil => simp [insertAll]
  | cons t ts ih =>
    rw [show s.insertAll (t :: ts) = (s.insert t).insertAll ts from rfl, ih, mem_names_insert,
      List.map_cons, List.mem_cons, or_assoc]

/-- Adding a set and then a token is adding the set with the token in it. -/
theorem insertAll_insert (s u : TokenSet) (t : Token) :
    s.insertAll (u.insert t).tokens = (s.insertAll u.tokens).insert t := by
  rw [insert]
  split_ifs with h
  · have hm : t.name ∈ (s.insertAll u.tokens).names :=
      mem_names_insertAll.mpr (.inr (contains_iff.mp h))
    rw [insert, if_pos (contains_iff.mpr hm)]
  · exact insertAll_append s u.tokens [t]

/-- Tokens may be brought together in sets of their own before they are added. -/
theorem insertAll_insertAll (s u : TokenSet) (ts : List Token) :
    s.insertAll (u.insertAll ts).tokens = (s.insertAll u.tokens).insertAll ts := by
  induction ts generalizing u with
  | nil => rfl
  | cons t ts ih => exact (ih (u.insert t)).trans (by rw [insertAll_insert]; rfl)

end TokenSet

namespace Tree

theorem draftsAll_eq (s : Snapshot) (scope : Scope) (ts : List Tree) :
    draftsAll s scope ts = ts.flatMap (drafts s scope) := by
  induction ts with
  | nil => rfl
  | cons t ts ih => rw [draftsAll, ih, List.flatMap_cons]

@[simp] theorem drafts_branch (s : Snapshot) (scope : Scope) (id : NodeId) (node : Node)
    (children : List Tree) :
    (branch id node children).drafts s scope =
      Draft.ofNode s (scope.enter node) false node ++
        children.flatMap (drafts s (scope.enter node)) := by
  rw [drafts, draftsAll_eq]

@[simp] theorem drafts_leaf (s : Snapshot) (scope : Scope) (id : NodeId) (node : Node) :
    (leaf id node).drafts s scope = Draft.ofNode s (scope.enter node) true node := rfl

variable {e : Environment}

theorem collectAll_eq (scope : Scope) {ts : List Tree}
    (h : ∀ t ∈ ts, ∀ set, t.collect e scope set =
      set.insertAll ((t.drafts e.snapshot scope).map (·.named e.names))) (set : TokenSet) :
    collectAll e scope ts set =
      set.insertAll ((ts.flatMap (drafts e.snapshot scope)).map (·.named e.names)) := by
  induction ts generalizing set with
  | nil => rfl
  | cons t ts ih =>
    have ht := h t List.mem_cons_self
    have hts := ih fun t' ht' => h t' (List.mem_cons_of_mem _ ht')
    rw [collectAll, List.flatMap_cons, List.map_append, TokenSet.insertAll_append]
    split_ifs
    · rw [hts, ht, TokenSet.insertAll_insertAll]
      rfl
    · rw [hts, ht]

/-- Boundaries make no difference to what is collected. -/
theorem collect_eq (scope : Scope) (t : Tree) (set : TokenSet) :
    t.collect e scope set =
      set.insertAll ((t.drafts e.snapshot scope).map (·.named e.names)) := by
  induction t generalizing scope set with
  | leaf id node => rfl
  | branch id node children ih =>
    rw [collect, collectAll_eq (scope.enter node) (fun t ht set => ih t ht _ set),
      drafts_branch, List.map_append, TokenSet.insertAll_append]

theorem properties_eq (scope : Scope) (t : Tree) :
    t.properties e scope =
      (TokenSet.empty.insertAll ((t.drafts e.snapshot scope).map (·.named e.names))).tokens := by
  rw [properties, collect_eq]

/-- The properties depend on the names of the dynamic values only. -/
theorem properties_congr {o o' : Options} {s : Snapshot} {names names' : Identifier.Table}
    {scope : Scope} {t : Tree} (h : ∀ d ∈ t.drafts s scope,
      names.nameOf .member d.source.entity = names'.nameOf .member d.source.entity) :
    t.properties ⟨o, s, names⟩ scope = t.properties ⟨o', s, names'⟩ scope := by
  rw [properties_eq, properties_eq]
  congr 2
  refine List.map_congr_left fun d hd => ?_
  rw [Draft.named, Draft.named, h d hd]

/-- A component declares exactly the names of the drafts below it. -/
theorem mem_map_name_properties {scope : Scope} {t : Tree} {name : String} :
    name ∈ (t.properties e scope).map Token.name ↔
      ∃ d ∈ t.drafts e.snapshot scope, e.names.nameOf .member d.source.entity = name := by
  rw [properties_eq]
  refine TokenSet.mem_names_insertAll.trans ?_
  simp [TokenSet.names, TokenSet.empty, Draft.named]

end Tree

end DesignComponents
