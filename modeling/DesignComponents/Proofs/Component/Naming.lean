import DesignComponents.Proofs.Component.Sites
import DesignComponents.Proofs.Identifier.Consistency

/-! The names of a compilation. Every node has a tag, every component a class, and all that a
component draws on or raises has a member name; the table of these names is consistent. The tags
of a tree do not depend on how it is divided into components. -/

namespace DesignComponents.Tree

open Identifier (Entity Namespace Request Table)

variable {o : Options} {s : Snapshot} {t : Tree}

theorem consistent_plan (o : Options) (s : Snapshot) (t : Tree) : (t.plan o s).Consistent :=
  ((Table.consistent_empty.assignAll _).assignAll _).assignAll _

/-! ### What has a name -/

theorem mem_keys_plan {k : Namespace × Entity} :
    k ∈ (t.plan o s).keys ↔ k ∈ (t.preorder.map tagRequest).map Request.key ∨
      k ∈ ((t.sites o).flatMap (·.memberRequests o s (t.planTags .empty))).map Request.key ∨
        k ∈ ((t.starts o).map classRequest).map Request.key := by
  rw [plan, Table.mem_keys_assignAll, Table.mem_keys_assignAll, planTags,
    Table.mem_keys_assignAll_empty, or_assoc]

theorem tag_mem_keys_plan {i : NodeId} (hi : i ∈ t.ids) :
    (Namespace.tag, Entity.node i) ∈ (t.plan o s).keys := by
  obtain ⟨n, hn, rfl⟩ := List.mem_map.mp hi
  exact mem_keys_plan.mpr (.inl (List.mem_map_of_mem (List.mem_map_of_mem hn)))

theorem class_mem_keys_plan {site : Site} (hs : site ∈ t.sites o) :
    (Namespace.className, Entity.node site.tree.id) ∈ (t.plan o s).keys := by
  have hstart := (starts_perm o t).symm.subset (List.mem_map_of_mem hs)
  exact mem_keys_plan.mpr (.inr (.inr (List.mem_map_of_mem (List.mem_map_of_mem hstart))))

theorem member_mem_keys_plan {site : Site} (hs : site ∈ t.sites o) {r : Request}
    (hr : r ∈ site.memberRequests o s (t.planTags .empty)) : r.key ∈ (t.plan o s).keys :=
  mem_keys_plan.mpr (.inr (.inl (List.mem_map_of_mem (List.mem_flatMap.mpr ⟨site, hs, hr⟩))))

theorem draft_mem_keys_plan {site : Site} (hs : site ∈ t.sites o) {d : Draft}
    (hd : d ∈ site.tree.drafts s site.scope) :
    (Namespace.member, d.source.entity) ∈ (t.plan o s).keys :=
  member_mem_keys_plan hs (List.mem_append_left _ (List.mem_map_of_mem hd))

theorem signal_mem_keys_plan {site : Site} (hs : site ∈ t.sites o) {g : Signal}
    (hg : g ∈ site.tree.signals o) :
    (Namespace.member, Entity.event g.origin g.trigger) ∈ (t.plan o s).keys :=
  member_mem_keys_plan hs (List.mem_append_right _ (List.mem_map_of_mem hg))

/-- Every dynamic value of every component has a name. -/
theorem exists_lookup_plan {site : Site} (hs : site ∈ t.sites o) {d : Draft}
    (hd : d ∈ site.tree.drafts s site.scope) :
    ∃ name, (t.plan o s).lookup .member d.source.entity = some name :=
  ⟨_, Table.lookup_nameOf (draft_mem_keys_plan hs hd)⟩

/-! ### Tags -/

theorem space_of_mem_tagRequests {ns : List (NodeId × Node)} {r : Identifier.Request}
    (h : r ∈ ns.map tagRequest) : r.space = .tag := by
  obtain ⟨n, -, rfl⟩ := List.mem_map.mp h
  rfl

theorem space_of_mem_classRequests {ns : List (NodeId × Node)} {r : Identifier.Request}
    (h : r ∈ ns.map classRequest) : r.space = .className := by
  obtain ⟨n, -, rfl⟩ := List.mem_map.mp h
  rfl

theorem space_of_mem_memberRequests {names : Table} {site : Site} {r : Identifier.Request}
    (h : r ∈ site.memberRequests o s names) : r.space = .member := by
  rcases List.mem_append.mp h with h | h
  · obtain ⟨d, -, rfl⟩ := List.mem_map.mp h
    rfl
  · obtain ⟨g, -, rfl⟩ := List.mem_map.mp h
    rfl

theorem space_of_mem_flatMap_memberRequests {names : Table} {sites : List Site}
    {r : Identifier.Request} (h : r ∈ sites.flatMap (·.memberRequests o s names)) :
    r.space = .member := by
  obtain ⟨site, -, h⟩ := List.mem_flatMap.mp h
  exact space_of_mem_memberRequests h

/-- Tags are planned first, and nothing changes them afterwards. -/
theorem tagOf_plan (i : NodeId) : (t.plan o s).tagOf i = (t.planTags .empty).tagOf i := by
  have hc : ∀ r ∈ (t.starts o).map classRequest, r.space ≠ .tag := fun r hr => by
    simp [space_of_mem_classRequests hr]
  have hm : ∀ r ∈ (t.sites o).flatMap (·.memberRequests o s (t.planTags .empty)),
      r.space ≠ .tag := fun r hr => by
    simp [space_of_mem_flatMap_memberRequests hr]
  rw [Table.tagOf, Table.nameOf, plan, Table.lookup_assignAll_of_ne _ hc,
    Table.lookup_assignAll_of_ne _ hm]
  rfl

end DesignComponents.Tree
