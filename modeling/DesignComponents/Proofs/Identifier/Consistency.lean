import DesignComponents.Proofs.Identifier.Bases

/-! Consistent tables. A table names everything once, gives no name twice in a namespace, never
gives a reserved name and never an empty one. The empty table is consistent, and requests keep
a table so. -/

namespace DesignComponents.Identifier

/-- What an entry has a name for. -/
def Entry.key (e : Entry) : Namespace × Entity := (e.space, e.entity)

/-- What a request wants a name for. -/
def Request.key (r : Request) : Namespace × Entity := (r.space, r.entity)

/-- The base that a request brings. -/
def Request.base (r : Request) : String := r.space.normalize r.raw

namespace Table

/-- All that has a name, last one first. -/
def keys (t : Table) : List (Namespace × Entity) := t.entries.map Entry.key

theorem mem_entries_of_lookup {t : Table} {space : Namespace} {entity : Entity} {name : String}
    (h : t.lookup space entity = some name) : ⟨space, entity, name⟩ ∈ t.entries := by
  obtain ⟨e, he, rfl⟩ := Option.map_eq_some_iff.mp h
  have hk := List.find?_some he
  rw [Bool.and_eq_true, decide_eq_true_eq, decide_eq_true_eq] at hk
  obtain ⟨rfl, rfl⟩ := hk
  exact List.mem_of_find?_eq_some he

theorem mem_filter_of_lookup {t : Table} {space : Namespace} {entity : Entity} {name : String}
    (h : t.lookup space entity = some name) :
    ⟨space, entity, name⟩ ∈ t.entries.filter fun e => e.space = space :=
  List.mem_filter.mpr ⟨mem_entries_of_lookup h, by simp⟩

theorem lookup_eq_none_iff {t : Table} {space : Namespace} {entity : Entity} :
    t.lookup space entity = none ↔ (space, entity) ∉ t.keys := by
  rw [lookup, Option.map_eq_none_iff, List.find?_eq_none, keys, List.mem_map]
  simp [Entry.key, not_and]

theorem isSome_lookup_iff {t : Table} {space : Namespace} {entity : Entity} :
    (t.lookup space entity).isSome = true ↔ (space, entity) ∈ t.keys := by
  rw [Option.isSome_iff_ne_none, ne_eq, lookup_eq_none_iff, not_not]

theorem lookup_nameOf {t : Table} {space : Namespace} {entity : Entity}
    (h : (space, entity) ∈ t.keys) : t.lookup space entity = some (t.nameOf space entity) := by
  obtain ⟨name, hn⟩ := Option.isSome_iff_exists.mp (isSome_lookup_iff.mpr h)
  rw [hn, nameOf_eq hn]

/-! ### One request -/

theorem assign_of_mem {t : Table} {r : Request} (h : r.key ∈ t.keys) : t.assign r = t := by
  obtain ⟨name, hn⟩ := Option.isSome_iff_exists.mp (isSome_lookup_iff.mpr h)
  rw [assign, hn]

theorem entries_assign_of_notMem {t : Table} {r : Request} (h : r.key ∉ t.keys) :
    (t.assign r).entries = ⟨r.space, r.entity, t.fresh r.space r.base⟩ :: t.entries := by
  rw [assign, lookup_eq_none_iff.mpr h]
  rfl

theorem keys_assign_of_notMem {t : Table} {r : Request} (h : r.key ∉ t.keys) :
    (t.assign r).keys = r.key :: t.keys := by
  rw [keys, entries_assign_of_notMem h]
  rfl

/-- A new entry takes one more name, in its own namespace. -/
theorem taken_assign_perm {t : Table} {r : Request} (h : r.key ∉ t.keys) (space : Namespace) :
    ((t.assign r).taken space).Perm
      ((if r.space = space then [t.fresh r.space r.base] else []) ++ t.taken space) := by
  rw [taken, entries_assign_of_notMem h]
  by_cases hs : r.space = space
  · rw [if_pos hs, List.filter_cons_of_pos (by simpa using hs), List.map_cons]
    exact List.perm_middle
  · rw [if_neg hs, List.filter_cons_of_neg (by simpa using hs)]
    exact List.Perm.refl _

theorem mem_keys_assign {t : Table} {r : Request} {k : Namespace × Entity} :
    k ∈ (t.assign r).keys ↔ k ∈ t.keys ∨ k = r.key := by
  by_cases h : r.key ∈ t.keys
  · rw [assign_of_mem h]
    exact ⟨.inl, fun hk => hk.elim id fun he => he ▸ h⟩
  · rw [keys_assign_of_notMem h, List.mem_cons, or_comm]

theorem mem_keys_assignAll {t : Table} {rs : List Request} {k : Namespace × Entity} :
    k ∈ (t.assignAll rs).keys ↔ k ∈ t.keys ∨ k ∈ rs.map Request.key := by
  induction rs generalizing t with
  | nil => simp
  | cons r rs ih =>
    rw [assignAll_cons, ih, mem_keys_assign, List.map_cons, List.mem_cons, or_assoc]

theorem mem_keys_assignAll_empty {rs : List Request} {k : Namespace × Entity} :
    k ∈ (empty.assignAll rs).keys ↔ k ∈ rs.map Request.key := by
  rw [mem_keys_assignAll]
  exact or_iff_right List.not_mem_nil

/-! ### What all names have -/

/-- All names of a table have a property, which may differ between namespaces. -/
def Names (t : Table) (P : Namespace → String → Prop) : Prop := ∀ e ∈ t.entries, P e.space e.name

section Names

variable {t : Table} {P : Namespace → String → Prop}

/-- A property of all bases, with any number, is kept by requests. -/
theorem Names.assign (hP : ∀ (space : Namespace) raw k, P space (numbered (space.normalize raw) k))
    (h : t.Names P) (r : Request) : (t.assign r).Names P := by
  by_cases hr : r.key ∈ t.keys
  · rwa [assign_of_mem hr]
  · obtain ⟨k, hk, -⟩ := t.exists_fresh_eq r.space r.base
    rw [Names, entries_assign_of_notMem hr, List.forall_mem_cons, hk]
    exact ⟨hP r.space r.raw k, h⟩

theorem Names.assignAll
    (hP : ∀ (space : Namespace) raw k, P space (numbered (space.normalize raw) k))
    (h : t.Names P) (rs : List Request) : (t.assignAll rs).Names P := by
  induction rs generalizing t with
  | nil => exact h
  | cons r rs ih => exact ih (h.assign hP r)

theorem Names.of_lookup (h : t.Names P) {space : Namespace} {entity : Entity} {name : String}
    (hn : t.lookup space entity = some name) : P space name :=
  h _ (mem_entries_of_lookup hn)

end Names

/-! ### The invariant -/

structure Consistent (t : Table) : Prop where
  nodup_keys : t.keys.Nodup
  /-- Names are given once, and reserved ones count as given. -/
  nodup_taken : ∀ space, (t.taken space).Nodup
  name_ne_empty : ∀ e ∈ t.entries, e.name ≠ ""

theorem consistent_empty : empty.Consistent where
  nodup_keys := List.nodup_nil
  nodup_taken space := by cases space <;> decide
  name_ne_empty e he := by cases he

theorem Consistent.assign {t : Table} (h : t.Consistent) (r : Request) :
    (t.assign r).Consistent := by
  by_cases hr : r.key ∈ t.keys
  · rwa [assign_of_mem hr]
  · have hfresh := t.fresh_notMem_taken r.space r.base
    constructor
    case nodup_keys =>
      rw [keys_assign_of_notMem hr]
      exact List.nodup_cons.mpr ⟨hr, h.nodup_keys⟩
    case nodup_taken =>
      intro space
      rw [(taken_assign_perm hr space).nodup_iff]
      split_ifs with hs
      · exact List.nodup_cons.mpr ⟨hs ▸ hfresh, h.nodup_taken space⟩
      · exact h.nodup_taken space
    case name_ne_empty =>
      have hbase : ∀ (space : Namespace) raw k, numbered (space.normalize raw) k ≠ "" :=
        fun space raw k => numbered_ne_empty (space.normalize_ne_empty raw) k
      have hnames : t.Names fun _ name => name ≠ "" := h.name_ne_empty
      exact hnames.assign hbase r

theorem Consistent.assignAll {t : Table} (h : t.Consistent) (rs : List Request) :
    (t.assignAll rs).Consistent := by
  induction rs generalizing t with
  | nil => exact h
  | cons r rs ih => exact ih (h.assign r)

namespace Consistent

variable {t : Table} {space : Namespace} {entity entity' : Entity} {name : String}

/-- Two things of one namespace have different names. -/
theorem entity_unique (h : t.Consistent) (hn : t.lookup space entity = some name)
    (hn' : t.lookup space entity' = some name) : entity = entity' := by
  have hnodup := (List.nodup_append.mp (h.nodup_taken space)).2.1
  have he := List.inj_on_of_nodup_map hnodup (mem_filter_of_lookup hn) (mem_filter_of_lookup hn') rfl
  exact congrArg Entry.entity he

theorem notMem_reserved (h : t.Consistent) (hn : t.lookup space entity = some name) :
    name ∉ reserved space := by
  intro hm
  have hgiven : name ∈ (t.entries.filter fun e => e.space = space).map Entry.name :=
    List.mem_map.mpr ⟨_, mem_filter_of_lookup hn, rfl⟩
  exact (List.nodup_append.mp (h.nodup_taken space)).2.2 name hm name hgiven rfl

theorem ne_empty (h : t.Consistent) (hn : t.lookup space entity = some name) : name ≠ "" :=
  h.name_ne_empty _ (mem_entries_of_lookup hn)

theorem nameOf_inj (h : t.Consistent) (ha : (space, entity) ∈ t.keys)
    (ha' : (space, entity') ∈ t.keys) (he : t.nameOf space entity = t.nameOf space entity') :
    entity = entity' :=
  h.entity_unique (lookup_nameOf ha) (he ▸ lookup_nameOf ha')

end Consistent

end Table

end DesignComponents.Identifier
